import Relayout.Proofs.Acceptance
import Relayout.Proofs.Frame
import Relayout.Proofs.Measured

/-!
# What the slot checks are good for

A destination type need not come from the combinators: arrays, records and
variants may show any size, length and offset. A build looks at them once. It
refuses a record slot that begins before its record or ends behind it, and a
payload that ends behind its variant. The rest it takes on trust: that sizes and
offsets are whole, that an array is as large as its items, that a variant holds
its tag, and that no payload begins before it. Where that trust is justified
every slot lies within its parent, and an application writes within its range.
Where it is not, some slot does not.
-/

namespace Relayout

open Relayout.Num

namespace Dest

/-! ## Slots within their parents -/

/-- The size of the type is a natural number below the limit of exactness. -/
def Sized (d : Dest) : Prop :=
  d.size.Is d.bytes ∧ d.bytes < exactLimit

/-- Every slot that a conversion from the descriptor fills lies within its parent. -/
inductive Confined : Dest → Desc → Prop
  | prim (p : Prim) (desc : Desc) : Confined (ofPrim p) desc
  | array {surface : Surface} {elem : Dest} {length : Num} {decoded count : Nat}
      {elemDesc len : Desc} (hsize : Sized (.array surface elem length decoded))
      (hlength : length.Is count) (hitem : 0 < count → Confined elem elemDesc)
      (hinside : ∀ i < count,
        i * elem.bytes + elem.bytes ≤ (array surface elem length decoded).bytes) :
      Confined (.array surface elem length decoded) (.array elemDesc len)
  | record {surface : Surface} {slots : List (Slot Dest)} {fields : List (Field Desc)}
      (hsize : Sized (.record surface slots))
      (hslot : ∀ s ∈ slots, ∀ f, fields.find? (·.name = s.name) = some f → Confined s.type f.type)
      (hinside : ∀ s ∈ slots,
        ∃ o, s.offset.Is o ∧ o + s.type.bytes ≤ (record surface slots).bytes) :
      Confined (.record surface slots) (.struct fields)
  | variant {surface : Surface} {cases : List (Case Dest)} {target decodedAt : Num}
      {ctors : List (Ctor Desc)} (hsize : Sized (.variant surface cases target decodedAt))
      (hpayload : ∀ c ctor, (c, ctor) ∈ Plan.matched ctors cases → Confined c.type ctor.type)
      (htag : Plan.matched ctors cases ≠ [] → 4 ≤ (variant surface cases target decodedAt).bytes)
      (hinside : ∀ c ctor, (c, ctor) ∈ Plan.matched ctors cases →
        ∃ p, target.Is p ∧ p + c.type.bytes ≤ (variant surface cases target decodedAt).bytes) :
      Confined (.variant surface cases target decodedAt) (.variant ctors)

/-- What a build takes on trust, wherever a conversion from the descriptor fills something. -/
inductive Honest : Dest → Desc → Prop
  | prim (p : Prim) (desc : Desc) : Honest (ofPrim p) desc
  | array {surface : Surface} {elem : Dest} {length : Num} {decoded : Nat} {elemDesc len : Desc}
      (hsize : Sized (.array surface elem length decoded))
      (hitem : ∀ count, length.Is count → 0 < count → Honest elem elemDesc)
      (hitems : ∀ count, length.Is count → 0 < count →
        count * elem.bytes ≤ (array surface elem length decoded).bytes) :
      Honest (.array surface elem length decoded) (.array elemDesc len)
  | record {surface : Surface} {slots : List (Slot Dest)} {fields : List (Field Desc)}
      (hsize : Sized (.record surface slots))
      (hslot : ∀ s ∈ slots, ∀ f, fields.find? (·.name = s.name) = some f → Honest s.type f.type)
      (hwhole : ∀ s ∈ slots, s.offset.isWhole = true) :
      Honest (.record surface slots) (.struct fields)
  | variant {surface : Surface} {cases : List (Case Dest)} {target decodedAt : Num}
      {ctors : List (Ctor Desc)} (hsize : Sized (.variant surface cases target decodedAt))
      (hpayload : ∀ c ctor, (c, ctor) ∈ Plan.matched ctors cases → Honest c.type ctor.type)
      (htag : Plan.matched ctors cases ≠ [] → 4 ≤ (variant surface cases target decodedAt).bytes)
      (hbehind : Plan.matched ctors cases ≠ [] → ∃ p, target.Is p) :
      Honest (.variant surface cases target decodedAt) (.variant ctors)

theorem sized_prim (p : Prim) : Sized (ofPrim p) :=
  (Settled.prim p).size_is

/-- A type whose slots all lie within their parents has earned the trust. -/
theorem Confined.honest {d : Dest} {desc : Desc} (h : d.Confined desc) : d.Honest desc := by
  induction h with
  | prim p desc => exact .prim p desc
  | @array surface elem length decoded count elemDesc len hsize hlength _ hinside ih =>
      refine .array hsize (fun k hk hpos => ih (hk.unique hlength ▸ hpos)) fun k hk hpos => ?_
      obtain rfl := hk.unique hlength
      have hlast := hinside (k - 1) (by omega)
      rwa [← Nat.succ_mul, Nat.succ_eq_add_one, Nat.sub_add_cancel hpos] at hlast
  | record hsize _ hinside ih =>
      refine .record hsize ih fun s hs => ?_
      obtain ⟨o, ho, -⟩ := hinside s hs
      exact (isWhole_not_lt_iff.mpr ⟨o, ho⟩).1
  | variant hsize _ htag hinside ih =>
      refine .variant hsize ih htag fun hne => ?_
      obtain ⟨⟨c, ctor⟩, hmem⟩ := List.exists_mem_of_ne_nil _ hne
      obtain ⟨p, hp, -⟩ := hinside c ctor hmem
      exact ⟨p, hp⟩

theorem Honest.sized {d : Dest} {desc : Desc} (h : d.Honest desc) : d.Sized := by
  cases h with
  | prim p => exact sized_prim p
  | array hsize => exact hsize
  | record hsize => exact hsize
  | variant hsize => exact hsize

theorem Confined.sized {d : Dest} {desc : Desc} (h : d.Confined desc) : d.Sized :=
  h.honest.sized

end Dest

/-! ## What the checks establish -/

namespace Plan

/-- The slots of a record that was matched have passed the check. -/
theorem buildSlots_checked {size : Num} {fields : List (Field Desc)} {path : List Text}
    {slots : List (Slot Dest)} {plans : List (FieldPlan Plan)}
    (h : (buildSlots size fields path slots).result = .ok plans) :
    ∀ s ∈ slots, (s.offset.lt 0 || size.lt (s.offset + s.type.size)) = false := by
  induction slots generalizing plans with
  | nil => simp
  | cons s rest ih =>
      obtain ⟨hfits, plan, plans', -, hplans, -⟩ := buildSlots_cons h
      exact List.forall_mem_cons.mpr ⟨hfits, ih hplans⟩

/-- The payloads of a variant that was matched have passed the check. -/
theorem buildCases_checked {size target : Num} {ctors : List (Ctor Desc)} {path : List Text}
    {cases : List (Case Dest)} {widest maxAlign : Num} {arms table : List (Arm Plan)}
    (h : (buildCases size target ctors path cases widest arms).result = .ok (maxAlign, table)) :
    ∀ found ∈ matched ctors cases, size.lt (target + found.1.type.size) = false :=
  buildCases_induct h
    (motive := fun found _ _ => ∀ one ∈ found, size.lt (target + one.1.type.size) = false)
    (by simp) fun hfits _ _ ih => List.forall_mem_cons.mpr ⟨hfits, ih⟩

/-- An array that was matched has a natural number of items. -/
theorem built_items {surface : Surface} {elem : Dest} {length : Num} {decoded : Nat} {desc : Desc}
    {plan : Plan} (h : Built (.array surface elem length decoded) desc plan) :
    ∃ elemDesc len count step convert, desc = .array elemDesc len ∧ length.Is count ∧
      Built elem elemDesc convert ∧ plan = .array count convert step elem.size := by
  obtain ⟨path, h⟩ := h
  cases desc with
  | array elemDesc len =>
      rw [build] at h
      obtain ⟨_, hlength, h⟩ := Traced.result_bind_eq_ok.mp h
      obtain ⟨convert, hconvert, h⟩ := Traced.result_bind_eq_ok.mp h
      obtain ⟨step, -, hplan⟩ := Traced.result_bind_eq_ok.mp h
      obtain ⟨n, count, rfl, -, hcount⟩ := checkLength_iff.mp (result_ofCause.mp hlength)
      rw [hcount.toNat?] at hplan
      cases hplan
      exact ⟨elemDesc, _, count, step, convert, rfl, hcount, ⟨_, result_inPart.mp hconvert⟩, rfl⟩
  | _ => cases h

end Plan

namespace Dest

/-- A slot that passed the check and begins at a natural number ends within its parent. -/
theorem ends_within {parent part : Dest} (hparent : parent.Sized) (hpart : part.Sized) {offset : Num}
    {o : Nat} (ho : offset.Is o) (h : parent.size.lt (offset + part.size) = false) :
    o + part.bytes ≤ parent.bytes := by
  have hend := (tracks_of_is ho).add (tracks_of_is hpart.1)
  have hlt := lt_iff hparent.1 hparent.2 hend
  rw [h] at hlt
  exact Nat.le_of_not_lt fun hlt' => Bool.false_ne_true (hlt.mpr hlt')

/-- **Where the trust is justified, the checks see to the rest.** -/
theorem Honest.confined {d : Dest} (native : d.Native) {desc : Desc} {plan : Plan}
    (built : Plan.Built d desc plan) (honest : d.Honest desc) : d.Confined desc := by
  induction native generalizing desc plan with
  | prim p => exact .prim p desc
  | @array surface elem length decoded _ ih =>
      obtain ⟨elemDesc, len, count, step, convert, rfl, hcount, hconvert, -⟩ :=
        Plan.built_items built
      cases honest with
      | array hsize hitem hitems =>
          refine .array hsize hcount (fun hpos => ih hconvert (hitem count hcount hpos)) fun i hi => ?_
          have hfit := hitems count hcount (by omega)
          have hend := Nat.mul_le_mul_right elem.bytes hi
          rw [Nat.succ_mul] at hend
          exact hend.trans hfit
  | record _ ih =>
      cases honest with
      | record hsize hslot hwhole =>
          obtain ⟨path, built⟩ := built
          rw [Plan.build] at built
          obtain ⟨plans, hplans, -⟩ := Traced.result_bind_eq_ok.mp built
          have hchecked := Plan.buildSlots_checked hplans
          have hfound := found_of_built (Plan.buildSlots_ok hplans)
          refine .record hsize (fun s hs f hf => ?_) fun s hs => ?_
          · obtain ⟨f', convert, hf', hconvert⟩ := hfound s hs
            obtain rfl : f' = f := Option.some.inj (hf'.symm.trans hf)
            exact ih s hs hconvert (hslot s hs f' hf)
          · obtain ⟨f, convert, hf, -⟩ := hfound s hs
            obtain ⟨hbegins, hends⟩ := Bool.or_eq_false_iff.mp (hchecked s hs)
            obtain ⟨o, ho⟩ := isWhole_not_lt_iff.mp ⟨hwhole s hs, hbegins⟩
            exact ⟨o, ho, ends_within hsize (hslot s hs f hf).sized ho hends⟩
  | variant _ ih =>
      cases honest with
      | variant hsize hpayload htag hbehind =>
          obtain ⟨path, built⟩ := built
          rw [Plan.build] at built
          obtain ⟨⟨maxAlign, table⟩, htable, -⟩ := Traced.result_bind_eq_ok.mp built
          have hchecked := Plan.buildCases_checked htable
          refine .variant hsize (fun c ctor hmem => ?_) htag fun c ctor hmem => ?_
          · obtain ⟨hc, hctor⟩ := Plan.mem_matched.mp hmem
            obtain ⟨convert, hconvert⟩ := Plan.buildCases_built htable c hc ctor hctor
            exact ih c hc hconvert (hpayload c ctor hmem)
          · obtain ⟨p, hp⟩ := hbehind (List.ne_nil_of_mem hmem)
            exact ⟨p, hp, ends_within hsize (hpayload c ctor hmem).sized hp (hchecked _ hmem)⟩

end Dest

/-! ## Where a confined type is written -/

namespace Plan

variable {order : ByteOrder} {policy : UnknownTagPolicy} {lo hi : Nat}

/-- So many bytes from a position on lie between two bounds, if there are any at all. -/
def Lodged (lo hi : Nat) (d : Num) (bytes : Nat) : Prop :=
  bytes = 0 ∨ ∃ o, d.Is o ∧ lo ≤ o ∧ o + bytes ≤ hi

/-- A part is lodged where its parent is. -/
theorem Lodged.part {d offset : Num} {n p k : Nat} (h : Lodged lo hi d n) (hhi : hi < exactLimit)
    (hoffset : offset.Is p) (hfit : p + k ≤ n) : Lodged lo hi (d + offset) k := by
  rcases h with rfl | ⟨o, ho, hlo, hend⟩
  · exact Or.inl (by omega)
  · exact Or.inr ⟨o + p, ho.add hoffset (by omega), by omega, by omega⟩

def WritesLodged (order : ByteOrder) (policy : UnknownTagPolicy) (lo hi : Nat) (dest : Dest)
    (desc : Desc) : Prop :=
  ∀ (src : History) {plan : Plan} {s d : Num}, Built dest desc plan → Lodged lo hi d dest.bytes →
    (plan.trail order policy src s d).All (Step.WritesWithin lo hi)

theorem lodged_prim (hhi : hi < exactLimit) (p : Prim) (desc : Desc) :
    WritesLodged order policy lo hi (.ofPrim p) desc := by
  intro src plan s d built hd
  rcases hd with hempty | ⟨o, ho, hlo, hend⟩
  · rw [idle_of_empty (.prim p) hempty src desc plan s d built]
    exact Trail.all_done
  · exact (writes_prim p built ho (by omega)).within.imp fun _ h => h.mono hlo hend

theorem lodged_array {surface : Surface} {elem : Dest} {length : Num} {decoded count : Nat}
    {elemDesc len : Desc} (hhi : hi < exactLimit) (hsize : (Dest.array surface elem length decoded).Sized)
    (hlength : length.Is count) (helem : 0 < count → elem.Sized)
    (hinside : ∀ i < count,
      i * elem.bytes + elem.bytes ≤ (Dest.array surface elem length decoded).bytes)
    (h : 0 < count → WritesLodged order policy lo hi elem elemDesc) :
    WritesLodged order policy lo hi (.array surface elem length decoded) (.array elemDesc len) := by
  intro src plan s d built hd
  obtain ⟨elemDesc', len', count', step, convert, heq, hcount, hconvert, rfl⟩ := built_items built
  cases heq
  obtain rfl := hcount.unique hlength
  rw [trail]
  refine Trail.all_iterate fun j _ hj => ?_
  have hpos : 0 < count' := by omega
  refine h hpos _ hconvert ?_
  -- items without bytes may lie anywhere
  by_cases hempty : elem.bytes = 0
  · exact Or.inl hempty
  · have hfit := hinside j (by omega)
    have hlimit := hsize.2
    have hle : j ≤ j * elem.bytes := Nat.le_mul_of_pos_right j (Nat.pos_of_ne_zero hempty)
    exact hd.part hhi ((is_ofNat (by omega)).mul (helem hpos).1 (by omega)) hfit

theorem lodged_fields {fields : List (Field Desc)} {slots : List (Slot Dest)}
    {plans : List (FieldPlan Plan)} (built : List.Forall₂ (SlotBuilt fields) slots plans)
    (src : History) {s d : Num} (h : ∀ slot ∈ slots, ∀ f, fields.find? (·.name = slot.name) = some f →
      WritesLodged order policy lo hi slot.type f.type ∧
        Lodged lo hi (d + slot.offset) slot.type.bytes) :
    (trailFields order policy src plans s d).All (Step.WritesWithin lo hi) := by
  induction built generalizing src with
  | nil => exact Trail.all_done
  | @cons slot plan slots plans hbuilt _ ih =>
      obtain ⟨hfirst, hrest⟩ := List.forall_mem_cons.mp h
      obtain ⟨field, hfield, -, hdst, hconvert⟩ := hbuilt
      obtain ⟨hwrites, hlodged⟩ := hfirst field hfield
      rw [trailFields, hdst]
      exact (hwrites _ hconvert hlodged).andThen (ih _ hrest)

theorem lodged_variant {surface : Surface} {cases : List (Case Dest)} {target decodedAt : Num}
    {ctors : List (Ctor Desc)} (hhi : hi < exactLimit)
    (htag : matched ctors cases ≠ [] → 4 ≤ (Dest.variant surface cases target decodedAt).bytes)
    (hinside : ∀ c ctor, (c, ctor) ∈ matched ctors cases →
      ∃ p, target.Is p ∧ p + c.type.bytes ≤ (Dest.variant surface cases target decodedAt).bytes)
    (h : ∀ c ctor, (c, ctor) ∈ matched ctors cases →
      WritesLodged order policy lo hi c.type ctor.type) :
    WritesLodged order policy lo hi (.variant surface cases target decodedAt)
      (.variant ctors) := by
  intro src plan s d built hd
  obtain ⟨ctors', maxAlign, arms, heq, rfl, -, -, harms⟩ := built_variant built
  cases heq
  rw [trail]
  refine Trail.all_reading trivial fun bytes _ => ?_
  rcases trailArm_taken harms (Word.ofBytes order bytes) with
    ⟨-, htrail⟩ | ⟨c, ctor, convert, -, hc, hctor, hconvert, htrail⟩
  · rw [htrail]
    exact (writes_unmatched _ _ _ _).within
  · have hmem := mem_matched.mpr ⟨hc, hctor⟩
    obtain ⟨p, hp, hfit⟩ := hinside c ctor hmem
    have htag := htag (List.ne_nil_of_mem hmem)
    rw [htrail]
    refine Trail.All.andThen ?_ (h c ctor hmem _ hconvert (hd.part hhi hp hfit))
    rcases hd with hempty | ⟨o, ho, hlo, hend⟩
    · omega
    · refine Trail.all_writing ⟨o, ho, hlo, ?_⟩
      rw [Word.length_toBytes]
      omega

/-- **A conversion into a confined type writes where the type is lodged.** -/
theorem lodged_of_confined {dest : Dest} {desc : Desc} (confined : dest.Confined desc)
    (hhi : hi < exactLimit) : WritesLodged order policy lo hi dest desc := by
  -- one lemma for each kind of node
  induction confined with
  | prim p desc => exact lodged_prim hhi p desc
  | array hsize hlength hitem hinside ih =>
      exact lodged_array hhi hsize hlength (fun hpos => (hitem hpos).sized) hinside ih
  | record hsize hslot hinside ih =>
      intro src plan s d built hd
      obtain ⟨fields, plans, heq, rfl, hplans⟩ := built_record built
      cases heq
      rw [trail]
      refine lodged_fields hplans src fun slot hslot f hf => ⟨ih slot hslot f hf, ?_⟩
      obtain ⟨p, hp, hfit⟩ := hinside slot hslot
      exact hd.part hhi hp hfit
  | variant hsize _ htag hinside ih => exact lodged_variant hhi htag hinside ih

end Plan

/-- Trails that write within bounds write no position outside them. -/
theorem Trail.not_mem_written {t : Trail} {lo hi i : Nat} (h : t.All (Step.WritesWithin lo hi))
    (hhi : hi < exactLimit) (hi' : i < lo ∨ hi ≤ i) : i ∉ t.written := by
  intro hmem
  obtain ⟨step, hstep, hpos⟩ := List.mem_flatMap.mp hmem
  cases step with
  | read start width => cases hpos
  | report event => cases hpos
  | write start bytes =>
      obtain ⟨o, ho, hlo, hend⟩ := h _ hstep
      rw [Step.positions_write ho (by omega)] at hpos
      have := List.mem_range'_1.mp hpos
      omega

/-! ## Applications -/

namespace Converter

/-- A run whose writes stay within bounds leaves all bytes outside them as they were. -/
theorem untouched_outside {c : Converter} {src dst : Memory} {s t : Num} {lo hi i : Nat}
    (h : (c.trail c.config.unknownTag src s t).All (Step.WritesWithin lo hi))
    (hhi : hi < exactLimit) (hi' : i < lo ∨ hi ≤ i) :
    (c.apply src dst s t).memory.bytes[i]? = dst.bytes[i]? := by
  rw [apply]
  cases hchecks : c.checkRanges src.size dst.size s t with
  | error cause =>
      rw [runAs, hchecks]
      rfl
  | ok _ =>
      rw [runAs_eq hchecks]
      exact Trail.getElem?_on (Trail.not_mem_written h hhi hi') dst

/-- **The slot checks of a build suffice just where its trust in the surfaces is justified.** Then
every slot that is filled lies within its parent, and an application whose destination range is
accepted writes no byte outside the range. -/
theorem apply_confined {dest : Dest} (native : dest.Native) {desc : Desc} {options : Layer}
    {c : Converter} (hbuild : (build dest desc options).result = .ok c) :
    (dest.Confined desc ↔ dest.Honest desc) ∧
      (dest.Honest desc → ∀ (src dst : Memory) (s t : Num), dst.Addressable →
        checkRange .destination dst.size t dest.size = .ok () →
        ∃ o, t.Is o ∧ o + dest.bytes ≤ dst.size ∧
          (c.trail c.config.unknownTag src s t).All (Step.WritesWithin o (o + dest.bytes)) ∧
          ∀ i, i < o ∨ o + dest.bytes ≤ i →
            (c.apply src dst s t).memory.bytes[i]? = dst.bytes[i]?) := by
  have built := builtFor_of_build hbuild
  cases built.same
  have hiff : c.dest.Confined desc ↔ c.dest.Honest desc :=
    ⟨Dest.Confined.honest, Dest.Honest.confined native built.plan⟩
  refine ⟨hiff, fun honest src dst s t hdst hrange => ?_⟩
  obtain ⟨o, ho, hfit⟩ := (checkRange_ok hdst (tracks_of_is honest.sized.1)).mp hrange
  have hend : o + c.dest.bytes < exactLimit := Nat.lt_of_le_of_lt hfit hdst
  have hwithin : (c.trail c.config.unknownTag src s t).All
      (Step.WritesWithin o (o + c.dest.bytes)) :=
    Plan.lodged_of_confined (hiff.mpr honest) hend _ built.plan
      (Or.inr ⟨o, ho, Nat.le_refl o, Nat.le_refl _⟩)
  exact ⟨o, ho, hfit, hwithin, fun i hi => untouched_outside hwithin hend hi⟩

end Converter

namespace Sample

/-- A record with room in front of its slot and behind it. -/
def roomy : Dest :=
  .record ⟨"\x7blevel: int32\x7d", 16, 4⟩ [⟨"level", 8, 8, .ofPrim .int32⟩]

/-- A level. -/
def level : Desc :=
  .struct [⟨"level", 0, .prim "int"⟩]

/-- An array that shows the size of its first item. -/
def short : Dest :=
  .array ⟨"int32[2]", 4, 4⟩ (.ofPrim .int32) 2 2

/-- A variant whose payload begins before it. -/
def early : Dest :=
  .variant ⟨"|level: int32|", 8, 4⟩ [⟨"level", 0, .ofPrim .int32⟩] (-4) (-4)

/-- A variant that is smaller than its tag. -/
def tight : Dest :=
  .variant ⟨"|idle: unit|", 2, 4⟩ [⟨"idle", 0, .ofPrim .unit⟩] 0 0

theorem roomy_native : roomy.Native :=
  .record (by simpa using Dest.Native.prim .int32)

theorem roomy_honest : roomy.Honest level := by
  have hsize : roomy.Sized := by
    have h16 : (16 : Num).Is 16 := is_ofNat (by decide)
    have hbytes : roomy.bytes = 16 := Dest.bytes_of_is h16
    exact ⟨hbytes.symm ▸ h16, hbytes.symm ▸ (by decide)⟩
  have h8 : (8 : Num).Is 8 := is_ofNat (by decide)
  refine .record hsize (fun s hs f hf => ?_) fun s hs => ?_
  · rw [List.mem_singleton.mp hs] at hf ⊢
    exact .prim .int32 f.type
  · rw [List.mem_singleton.mp hs]
    exact (isWhole_not_lt_iff.mpr ⟨8, h8⟩).1

/-- An application to the destination from `o` on, whose range is accepted, changes a byte
outside the range. -/
def Escapes (dest : Dest) (desc : Desc) (src dst : Memory) (o : Nat) : Prop :=
  ∃ c, (Converter.build dest desc options).result = .ok c ∧
    Converter.checkRange .destination dst.size (.ofNat o) dest.size = .ok () ∧
    ∃ i, (i < o ∨ o + dest.bytes ≤ i) ∧
      (c.apply src dst 0 (.ofNat o)).memory.bytes[i]? ≠ dst.bytes[i]?

end Sample

namespace Converter

/-- The roomy record is filled within its sixteen bytes. -/
theorem apply_confined_sample : ∃ c, (build Sample.roomy Sample.level Sample.options).result = .ok c ∧
    Sample.roomy.Confined Sample.level ∧
    ∃ o, (4 : Num).Is o ∧ ∀ i, i < o ∨ o + Sample.roomy.bytes ≤ i →
      (c.apply Sample.bytes (.zeros 24) 0 4).memory.bytes[i]? = (Memory.zeros 24).bytes[i]? := by
  have hbuild := eq_ok_get (x := (build Sample.roomy Sample.level Sample.options).result)
    (by decide +kernel)
  have hdst : (Memory.zeros 24).Addressable := by
    rw [Memory.Addressable]
    decide
  obtain ⟨hiff, hwrites⟩ := apply_confined Sample.roomy_native hbuild
  obtain ⟨o, ho, -, -, houtside⟩ := hwrites Sample.roomy_honest Sample.bytes (.zeros 24) 0 4 hdst
    (eq_ok_unit (by decide +kernel))
  exact ⟨_, hbuild, hiff.mpr Sample.roomy_honest, o, ho, houtside⟩

/-- A build accepts an array that is smaller than its items, a variant whose payload begins before
it and a variant that is smaller than its tag. All three are written outside their range. -/
theorem trusted_surfaces_escape :
    (Sample.short.Native ∧ Sample.early.Native ∧ Sample.tight.Native) ∧
    Sample.Escapes Sample.short (.array (.prim "int") (.nat 2)) ⟨#[1, 0, 0, 0, 2, 0, 0, 0]⟩
      (.zeros 8) 0 ∧
    Sample.Escapes Sample.early (.variant [⟨"level", 0, .prim "int"⟩]) ⟨#[0, 0, 0, 0, 7, 0, 0, 0]⟩
      (.zeros 12) 4 ∧
    Sample.Escapes Sample.tight (.variant [⟨"idle", 0, .prim "unit"⟩]) ⟨#[0, 0, 0, 0]⟩
      ⟨#[1, 1, 1, 1]⟩ 0 := by
  refine ⟨⟨.array (.prim _), .variant ?_, .variant ?_⟩, ?_, ?_, ?_⟩
  · simpa using Dest.Native.prim .int32
  · simpa using Dest.Native.prim .unit
  · exact ⟨_, eq_ok_get (by decide +kernel), eq_ok_unit (by decide +kernel), 4,
      by decide +kernel, by decide +kernel⟩
  · exact ⟨_, eq_ok_get (by decide +kernel), eq_ok_unit (by decide +kernel), 0,
      by decide +kernel, by decide +kernel⟩
  · exact ⟨_, eq_ok_get (by decide +kernel), eq_ok_unit (by decide +kernel), 2,
      by decide +kernel, by decide +kernel⟩

end Converter

end Relayout

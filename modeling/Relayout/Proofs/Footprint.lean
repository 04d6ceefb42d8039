import Mathlib.Logic.Relation
import Relayout.Proofs.Replay

/-!
# Footprints

The footprint of a conversion is the list of destination bytes that it writes if
nothing stops it: those of primitives, and those of the tags of the constructors
that are taken. Padding, the rest of a payload, and a variant whose source tag
is unknown are not in it. In an exact layout no byte is in it twice.
-/

namespace Relayout

open Relayout.Num

/-- The position of a slot from the start of its record. -/
def Slot.start {τ : Type} (s : Slot τ) : Nat :=
  s.offset.toNat?.getD 0

/-- A placed slot lies between the ends of its record. -/
theorem Dest.Placed.within {slots : List (Slot Dest)} {start finish : Nat}
    (h : Placed slots start finish) :
    ∀ slot ∈ slots, start ≤ slot.start ∧ slot.start + slot.type.bytes ≤ finish := by
  induction slots generalizing start with
  | nil => simp
  | cons slot rest ih =>
      obtain ⟨p, hp, -, hstart, hrest⟩ := h
      have hplace : slot.start = p := by rw [Slot.start, hp.toNat?, Option.getD_some]
      have hle := hrest.le
      refine List.forall_mem_cons.mpr ⟨by omega, fun other hother => ?_⟩
      have := ih hrest other hother
      omega

/-- The distance between the items of a source array. -/
def Desc.stride (elem : Desc) : Num :=
  match elem.size with
  | .ok step => step
  | .error _ => 0

namespace Dest

mutual

/-- The bytes that the conversion of the source value at `s` writes into a
destination at `o`. -/
def footprint (order : ByteOrder) : (src : History) → Dest → Desc → (s : Num) → (o : Nat) → List Nat
  | _, .prim _ _ _ codec, _, _, o => List.range' o codec.size
  | src, .array _ elem _ count, desc, s, o =>
    match desc with
    | .array elemDesc _ =>
      (List.range' 0 count).flatMap fun i =>
        footprint order (src.part i) elem elemDesc (s + .ofNat i * elemDesc.stride)
          (o + i * elem.bytes)
    | _ => []
  | src, .record _ slots, desc, s, o =>
    match desc with
    | .struct fields => slotsFootprint order src fields slots s o
    | _ => []
  | src, .variant _ cases payloadOffset _, desc, s, o =>
    match desc with
    | .variant ctors =>
      match src.here.loadWord order s 4 with
      | .ok tag =>
        (caseFootprint order (src.part 0) ctors (.ofNat tag) cases
          (s + Plan.payloadAt ctors cases) o (payloadOffset.toNat?.getD 0)).getD []
      | .error _ => []
    | _ => []

def slotsFootprint (order : ByteOrder) :
    (src : History) → List (Field Desc) → List (Slot Dest) → (s : Num) → (o : Nat) → List Nat
  | _, _, [], _, _ => []
  | src, fields, slot :: rest, s, o =>
    (match fields.find? (·.name = slot.name) with
      | some f =>
        footprint order (src.part 0) slot.type f.type (s + f.offset) (o + slot.start)
      | none => []) ++ slotsFootprint order src.rest fields rest s o

/-- The bytes of the constructor that is taken for a tag: its tag and its payload. -/
def caseFootprint (order : ByteOrder) (src : History) (ctors : List (Ctor Desc)) (tag : Num) :
    List (Case Dest) → (s : Num) → (o p : Nat) → Option (List Nat)
  | [], _, _, _ => none
  | c :: rest, s, o, p =>
    (caseFootprint order src ctors tag rest s o p).or
      (((ctors.find? (·.name = c.name)).filter (·.id.eqv tag)).map fun ctor =>
        List.range' o 4 ++ footprint order src c.type ctor.type s (o + p))

end

variable (order : ByteOrder)

theorem caseFootprint_eq (src : History) (ctors : List (Ctor Desc)) (tag : Num)
    (cases : List (Case Dest)) (s : Num) (o p : Nat) :
    caseFootprint order src ctors tag cases s o p =
      (Plan.taken ctors tag cases).map fun found =>
        List.range' o 4 ++ footprint order src found.1.type found.2.type s (o + p) := by
  induction cases with
  | nil => rw [caseFootprint, Plan.taken, Option.map_none]
  | cons c rest ih =>
      rw [caseFootprint, Plan.taken, ih, Option.map_or, Option.map_map]
      rfl

/-- A variant whose source tag is unknown writes neither a tag nor a payload. -/
theorem footprint_unknown {src : History} {surface : Surface} {cases : List (Case Dest)}
    {payloadOffset decodedAt : Num} {ctors : List (Ctor Desc)} {s : Num} {tag : Nat}
    (htag : src.here.loadWord order s 4 = .ok tag)
    (h : Plan.taken ctors (.ofNat tag) cases = none) (o : Nat) :
    footprint order src (.variant surface cases payloadOffset decodedAt) (.variant ctors) s o =
      [] := by
  simp only [footprint, htag, caseFootprint_eq, h, Option.map_none, Option.getD_none]

/-! ## No byte twice -/

/-- Bytes within two positions, none of them twice. -/
def Spread (l : List Nat) (lo hi : Nat) : Prop :=
  (∀ i ∈ l, lo ≤ i ∧ i < hi) ∧ l.Nodup

theorem spread_nil (lo hi : Nat) : Spread [] lo hi :=
  ⟨by simp, List.nodup_nil⟩

theorem spread_range (o width : Nat) : Spread (List.range' o width) o (o + width) :=
  ⟨fun _ hi => List.mem_range'_1.mp hi, List.nodup_range'⟩

theorem Spread.mono {l : List Nat} {lo hi lo' hi' : Nat} (h : Spread l lo hi) (hlo : lo' ≤ lo)
    (hhi : hi ≤ hi') : Spread l lo' hi' :=
  ⟨fun i hi => ⟨by have := (h.1 i hi).1; omega, by have := (h.1 i hi).2; omega⟩, h.2⟩

theorem Spread.append {l l' : List Nat} {lo mid hi : Nat} (h : Spread l lo mid)
    (h' : Spread l' mid hi) (hle : lo ≤ mid) (hle' : mid ≤ hi) : Spread (l ++ l') lo hi := by
  constructor
  · intro i hi
    rcases List.mem_append.mp hi with hi | hi
    · have := h.1 i hi
      omega
    · have := h'.1 i hi
      omega
  · refine List.nodup_append.mpr ⟨h.2, h'.2, fun i hi j hj => ?_⟩
    have := h.1 i hi
    have := h'.1 j hj
    omega

/-- Items of one size that follow one another. -/
theorem spread_items {width : Nat} {item : Nat → List Nat} {o : Nat}
    (h : ∀ i, Spread (item i) (o + i * width) (o + i * width + width)) (i count : Nat) :
    Spread ((List.range' i count).flatMap item) (o + i * width) (o + (i + count) * width) := by
  induction count generalizing i with
  | zero => exact spread_nil _ _
  | succ count ih =>
      have hrest := ih (i + 1)
      have hstep : o + (i + 1) * width = o + i * width + width := by
        rw [Nat.add_mul, Nat.one_mul, Nat.add_assoc]
      have hend : i + 1 + count = i + (count + 1) := by omega
      rw [hstep, hend] at hrest
      rw [List.range'_succ, List.flatMap_cons]
      refine (h i).append hrest (by omega) ?_
      have hle : (i + 1) * width ≤ (i + (count + 1)) * width := Nat.mul_le_mul_right _ (by omega)
      omega

theorem spread_slots {fields : List (Field Desc)} {slots : List (Slot Dest)}
    (h : ∀ slot ∈ slots, ∀ src desc s o,
      Spread (footprint order src slot.type desc s o) o (o + slot.type.bytes))
    {start finish : Nat} (placed : Placed slots start finish) (src : History) (s : Num) (o : Nat) :
    Spread (slotsFootprint order src fields slots s o) (o + start) (o + finish) := by
  induction slots generalizing start src with
  | nil => exact spread_nil _ _
  | cons slot rest ih =>
      obtain ⟨p, hp, -, hstart, hrest⟩ := placed
      have hslot : slot.start = p := by rw [Slot.start, hp.toNat?, Option.getD_some]
      have htail := ih (fun g hg => h g (List.mem_cons_of_mem _ hg)) hrest src.rest
      have hle := hrest.le
      have hhead : Spread (match fields.find? (·.name = slot.name) with
          | some f =>
            footprint order (src.part 0) slot.type f.type (s + f.offset) (o + slot.start)
          | none => []) (o + start) (o + (p + slot.type.bytes)) := by
        cases fields.find? (·.name = slot.name) with
        | none => exact spread_nil _ _
        | some f =>
            refine (h slot List.mem_cons_self (src.part 0) f.type (s + f.offset)
              (o + slot.start)).mono ?_ ?_
            · omega
            · omega
      rw [slotsFootprint]
      exact hhead.append htail (by omega) (by omega)

/-- The tag and the payload of the constructor that is taken, or nothing. -/
theorem spread_variant {ctors : List (Ctor Desc)} {cases : List (Case Dest)}
    (h : ∀ c ∈ cases, ∀ src desc s o,
      Spread (footprint order src c.type desc s o) o (o + c.type.bytes))
    {surface : Surface} {payloadOffset decodedAt : Num} {p n : Nat} (hoffset : payloadOffset.Is p)
    (htag : 4 ≤ p) (hfits : ∀ c ∈ cases, p + c.type.bytes ≤ n) (src : History) (s : Num) (o : Nat) :
    Spread (footprint order src (.variant surface cases payloadOffset decodedAt)
      (.variant ctors) s o) o (o + n) := by
  have hpay : payloadOffset.toNat?.getD 0 = p := by rw [hoffset.toNat?, Option.getD_some]
  rw [footprint]
  cases src.here.loadWord order s 4 with
  | error e => exact spread_nil _ _
  | ok tag =>
      simp only [caseFootprint_eq]
      cases htaken : Plan.taken ctors (.ofNat tag) cases with
      | none => exact spread_nil _ _
      | some found =>
          obtain ⟨c, ctor⟩ := found
          obtain ⟨hmem, -, -⟩ := Plan.taken_spec htaken
          have hfit := hfits c hmem
          have hpayload := h c hmem (src.part 0) ctor.type (s + Plan.payloadAt ctors cases) (o + p)
          have hrest : Spread _ (o + 4) (o + n) := hpayload.mono (by omega) (by omega)
          rw [hpay]
          exact (spread_range o 4).append hrest (by omega) (by omega)

theorem spread_of_settled {d : Dest} (settled : Settled d) (src : History) (desc : Desc) (s : Num)
    (o : Nat) : Spread (footprint order src d desc s o) o (o + d.bytes) := by
  induction settled generalizing src desc s o with
  | prim p =>
      have hp : (Num.ofNat p.size).Is p.size := is_ofNat (by cases p <;> decide)
      have hbytes : (ofPrim p).bytes = p.size := bytes_of_is hp
      rw [hbytes]
      exact spread_range o p.size
  | @array surface elem length count helem hlength hsize hlimit ih =>
      have hbytes : (Dest.array surface elem length count).bytes = count * elem.bytes :=
        bytes_of_is hsize
      rw [hbytes]
      cases desc with
      | array elemDesc len =>
          rcases Nat.eq_zero_or_pos count with rfl | hpos
          · exact spread_nil _ _
          · have hitems := spread_items (o := o)
              (fun i => ih hpos (src.part i) elemDesc (s + .ofNat i * elemDesc.stride)
                (o + i * elem.bytes)) 0 count
            rw [Nat.zero_mul, Nat.zero_add, Nat.add_zero] at hitems
            exact hitems
      | _ => exact spread_nil _ _
  | @record surface slots n hslots hplaced hsize hlimit ih =>
      have hbytes : (Dest.record surface slots).bytes = n := bytes_of_is hsize
      rw [hbytes]
      cases desc with
      | struct fields => exact spread_slots order ih hplaced src s o
      | _ => exact spread_nil _ _
  | @variant surface cases payloadOffset p n hcases hoffset htag hfits hpn hsize hlimit ih =>
      have hbytes : (Dest.variant surface cases payloadOffset payloadOffset).bytes = n :=
        bytes_of_is hsize
      rw [hbytes]
      cases desc with
      | variant ctors => exact spread_variant order ih hoffset htag hfits src s o
      | _ => exact spread_nil _ _

/-- **In an exact layout the footprint lies within the value, and no byte is in it twice.** -/
theorem spread_footprint {d : Dest} (laid : Laid d) (src : History) (desc : Desc) (s : Num)
    (o : Nat) : Spread (footprint order src d desc s o) o (o + d.bytes) :=
  spread_of_settled order laid.settled src desc s o

/-- A type without bytes has an empty footprint. -/
theorem footprint_of_empty {d : Dest} (settled : Settled d) (h : d.bytes = 0) (src : History)
    (desc : Desc) (s : Num) (o : Nat) : footprint order src d desc s o = [] := by
  have hwithin := (spread_of_settled order settled src desc s o).1
  rw [h] at hwithin
  refine List.eq_nil_iff_forall_not_mem.mpr fun i hi => ?_
  have := hwithin i hi
  omega

end Dest

/-! ## The sites of a conversion -/

/-- A pair that a conversion comes to: what it finds from there on, where the source value is,
and where the slot in the destination begins. -/
structure Site where
  found : History
  dest : Dest
  desc : Desc
  source : Num
  start : Nat

namespace Site

/-- The site `y` is a part of the site `x`. -/
inductive Part (order : ByteOrder) : (x y : Site) → Prop
  | item {found : History} {surface : Surface} {elem : Dest} {length : Num} {count i : Nat}
      {elemDesc len : Desc} {s : Num} {o : Nat} (hi : i < count) :
      Part order ⟨found, .array surface elem length count, .array elemDesc len, s, o⟩
        ⟨found.part i, elem, elemDesc, s + .ofNat i * elemDesc.stride, o + i * elem.bytes⟩
  | slot {found : History} {surface : Surface} {slots : List (Slot Dest)} {k : Nat}
      {slot : Slot Dest} {fields : List (Field Desc)} {f : Field Desc} {s : Num} {o : Nat}
      (hslot : slots[k]? = some slot) (hf : fields.find? (·.name = slot.name) = some f) :
      Part order ⟨found, .record surface slots, .struct fields, s, o⟩
        ⟨found.part k, slot.type, f.type, s + f.offset, o + slot.start⟩
  | payload {found : History} {surface : Surface} {cases : List (Case Dest)}
      {payloadOffset decodedAt : Num} {ctors : List (Ctor Desc)} {tag : Nat} {c : Case Dest}
      {ctor : Ctor Desc} {s : Num} {o : Nat} (htag : found.here.loadWord order s 4 = .ok tag)
      (htaken : Plan.taken ctors (.ofNat tag) cases = some (c, ctor)) :
      Part order ⟨found, .variant surface cases payloadOffset decodedAt, .variant ctors, s, o⟩
        ⟨found.part 0, c.type, ctor.type, s + Plan.payloadAt ctors cases,
          o + payloadOffset.toNat?.getD 0⟩

/-- The sites that a conversion from `x` on comes to. -/
def Visits (order : ByteOrder) : Site → Site → Prop :=
  Relation.ReflTransGen (Part order)

/-- A variant whose source tag is unknown. -/
inductive Unknown (order : ByteOrder) : Site → Prop
  | mk {found : History} {surface : Surface} {cases : List (Case Dest)}
      {payloadOffset decodedAt : Num} {ctors : List (Ctor Desc)} {tag : Nat} {s : Num} {o : Nat}
      (htag : found.here.loadWord order s 4 = .ok tag)
      (hnone : Plan.taken ctors (.ofNat tag) cases = none) :
      Unknown order ⟨found, .variant surface cases payloadOffset decodedAt, .variant ctors, s, o⟩

def footprint (order : ByteOrder) (x : Site) : List Nat :=
  x.dest.footprint order x.found x.desc x.source x.start

/-- The position lies in the slot of the site. -/
def Covers (x : Site) (i : Nat) : Prop :=
  x.start ≤ i ∧ i < x.start + x.dest.bytes

variable {order : ByteOrder} {x y : Site} {i : Nat}

/-- What a record writes in the place of one of its slots. -/
theorem mem_slot {fields : List (Field Desc)} {slots : List (Slot Dest)} {start finish : Nat}
    (settled : ∀ slot ∈ slots, slot.type.Settled) (placed : Dest.Placed slots start finish)
    {found : History} {s : Num} {o : Nat} (hi : i ∈ Dest.slotsFootprint order found fields slots s o)
    {k : Nat} {slot : Slot Dest} (hslot : slots[k]? = some slot) {f : Field Desc}
    (hf : fields.find? (·.name = slot.name) = some f) (hlo : o + slot.start ≤ i)
    (hhi : i < o + slot.start + slot.type.bytes) :
    i ∈ slot.type.footprint order (found.part k) f.type (s + f.offset) (o + slot.start) := by
  induction slots generalizing start found k with
  | nil => cases hslot
  | cons first rest ih =>
      obtain ⟨hfirst, hothers⟩ := List.forall_mem_cons.mp settled
      obtain ⟨p, hp, -, hstart, hrest⟩ := placed
      have hplace : first.start = p := by rw [Slot.start, hp.toNat?, Option.getD_some]
      rw [Dest.slotsFootprint, List.mem_append] at hi
      cases k with
      | zero =>
          obtain rfl := Option.some.inj hslot
          rcases hi with hi | hi
          · rwa [hf] at hi
          · -- what the other slots write lies behind this one
            have hbehind := (Dest.spread_slots order
              (fun g hg src desc s o => Dest.spread_of_settled order (hothers g hg) src desc s o)
              hrest found.rest s o).1 i hi
            omega
      | succ k =>
          rcases hi with hi | hi
          · -- what the first slot writes lies before all others
            have hslots := hrest.within slot (List.mem_of_getElem? hslot)
            cases hfield : fields.find? (·.name = first.name) with
            | none =>
                rw [hfield] at hi
                cases hi
            | some g =>
                rw [hfield] at hi
                have hbefore := (Dest.spread_of_settled order hfirst (found.part 0) g.type
                  (s + g.offset) (o + first.start)).1 i hi
                omega
          · exact ih hothers hrest hi hslot

/-- What an array writes in the place of one of its items. -/
theorem mem_item {width : Nat} {item : Nat → List Nat} {o count k : Nat}
    (h : ∀ j, Dest.Spread (item j) (o + j * width) (o + j * width + width))
    (hi : i ∈ (List.range' 0 count).flatMap item) (hlo : o + k * width ≤ i)
    (hhi : i < o + k * width + width) : i ∈ item k := by
  obtain ⟨j, -, hj⟩ := List.mem_flatMap.mp hi
  have hplace := (h j).1 i hj
  rcases Nat.lt_trichotomy j k with hlt | rfl | hlt
  · have hle : (j + 1) * width ≤ k * width := Nat.mul_le_mul_right width hlt
    rw [Nat.add_mul, Nat.one_mul] at hle
    omega
  · exact hj
  · have hle : (k + 1) * width ≤ j * width := Nat.mul_le_mul_right width hlt
    rw [Nat.add_mul, Nat.one_mul] at hle
    omega

/-- **In the slot of a part only the part writes**, and the slot lies in that of the whole. -/
theorem Part.spec (h : Part order x y) (settled : x.dest.Settled) :
    y.dest.Settled ∧ (∀ i, y.Covers i → x.Covers i) ∧
      ∀ i ∈ x.footprint order, y.Covers i → i ∈ y.footprint order := by
  cases h with
  | @item found surface elem length count k elemDesc len s o hk =>
      cases settled with
      | array helem hlength hsize hlimit =>
          have hpos : 0 < count := by omega
          have hbytes : (Dest.array surface elem length count).bytes = count * elem.bytes :=
            Dest.bytes_of_is hsize
          have hle : (k + 1) * elem.bytes ≤ count * elem.bytes := Nat.mul_le_mul_right _ hk
          rw [Nat.add_mul, Nat.one_mul] at hle
          refine ⟨helem hpos, fun i hi => ?_, fun i hi hcovers => ?_⟩
          · simp only [Covers, hbytes] at hi ⊢
            omega
          · simp only [footprint, Dest.footprint] at hi
            have hspread := fun j => Dest.spread_of_settled order (helem hpos) (found.part j) elemDesc
              (s + .ofNat j * elemDesc.stride) (o + j * elem.bytes)
            have hown := mem_item hspread hi hcovers.1 hcovers.2
            exact hown
  | @slot found surface slots k slot fields f s o hslot hf =>
      cases settled with
      | @record _ _ n hslots hplaced hsize hlimit =>
          have hbytes : (Dest.record surface slots).bytes = n := Dest.bytes_of_is hsize
          have hmem := List.mem_of_getElem? hslot
          have hwithin := hplaced.within slot hmem
          refine ⟨hslots slot hmem, fun i hi => ?_, fun i hi hcovers => ?_⟩
          · simp only [Covers, hbytes] at hi ⊢
            omega
          · simp only [footprint, Dest.footprint] at hi
            exact mem_slot hslots hplaced hi hslot hf hcovers.1 hcovers.2
  | @payload found surface cases payloadOffset decodedAt ctors tag c ctor s o htag htaken =>
      cases settled with
      | @variant _ _ _ p n hcases hoffset htagsize hfits hpn hsize hlimit =>
          have hbytes : (Dest.variant surface cases payloadOffset payloadOffset).bytes = n :=
            Dest.bytes_of_is hsize
          have hpay : payloadOffset.toNat?.getD 0 = p := by rw [hoffset.toNat?, Option.getD_some]
          obtain ⟨hmem, -, -⟩ := Plan.taken_spec htaken
          have hfit := hfits c hmem
          refine ⟨hcases c hmem, fun i hi => ?_, fun i hi hcovers => ?_⟩
          · simp only [Covers, hbytes, hpay] at hi ⊢
            omega
          · simp only [footprint, Dest.footprint, htag, Dest.caseFootprint_eq, htaken,
              Option.map_some, Option.getD_some, List.mem_append] at hi
            rcases hi with hi | hi
            · have := List.mem_range'_1.mp hi
              simp only [Covers, hpay] at hcovers
              omega
            · exact hi

/-- **In the slot of a site that is visited only that site writes.** -/
theorem Visits.spec (h : Visits order x y) (settled : x.dest.Settled) :
    y.dest.Settled ∧ ∀ i ∈ x.footprint order, y.Covers i → i ∈ y.footprint order := by
  induction h with
  | refl => exact ⟨settled, fun i hi _ => hi⟩
  | tail _ hpart ih =>
      obtain ⟨hsettled, hcovers, hmem⟩ := hpart.spec ih.1
      exact ⟨hsettled, fun i hi hcov => hmem i (ih.2 i hi (hcovers i hcov)) hcov⟩

/-- A variant whose source tag is unknown keeps its slot, the tag and the payload. -/
theorem not_mem_of_unknown (h : Visits order x y) (settled : x.dest.Settled)
    (unknown : y.Unknown order) (hi : y.Covers i) : i ∉ x.footprint order := by
  intro hmem
  have hown := (h.spec settled).2 i hmem hi
  obtain ⟨htag, hnone⟩ := unknown
  rw [footprint, Dest.footprint_unknown order htag hnone] at hown
  cases hown

end Site

end Relayout

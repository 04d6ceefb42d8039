import Relayout.Proofs.LayoutRules
import Relayout.Proofs.Ranges

/-!
# Aligned layouts

Descriptors composed of primitives, arrays, structs with computed offsets and
variants keep the rules of layout at every depth, and so do the destination
types that the combinators make.
-/

namespace Relayout

open Relayout.Num

/-! ## Source types -/

namespace Desc

def layout : Layout Desc where
  size := size
  align := align
  node
    | prim name => do return .scalar (← primSize name)
    | nat _ => .error sizeAsType
    | array elem len => do return .items elem (← lengthOf len)
    | struct fields => .ok (.parts (fields.map fun f => (f.offset, f.type)))
    | variant ctors => do return .tagged (← payloadOffset ctors) (ctors.map Ctor.type)

/-- A descriptor composed of known primitives, arrays of a stated length, structs
with computed offsets, and variants with any tags. -/
inductive Composed : Desc → Prop
  | prim (p : PrimName) : Composed (prim p.name)
  | array {elem : Desc} {length : Num} {count : Nat} (helem : Composed elem)
      (hlength : length.Is count) : Composed (array elem (nat length))
  | struct {parts : List (Text × Desc)} {made : Desc} (hparts : ∀ part ∈ parts, Composed part.2)
      (hmade : structOf parts = .ok made) : Composed made
  | variant {ctors : List (Ctor Desc)} (hctors : ∀ c ∈ ctors, Composed c.type) :
      Composed (variant ctors)

/-- The fields of a struct with computed offsets are its parts in their order. -/
theorem placeFields_parts {parts : List (Text × Desc)} {fields : List (Field Desc)} {offset : Num}
    (h : placeFields parts offset = .ok fields) :
    fields.map (fun f => (f.name, f.type)) = parts := by
  induction parts generalizing fields offset with
  | nil =>
      cases h
      rfl
  | cons part rest ih =>
      obtain ⟨name, type⟩ := part
      rw [placeFields] at h
      obtain ⟨a, -, h⟩ := bind_eq_ok.mp h
      obtain ⟨x, -, h⟩ := bind_eq_ok.mp h
      obtain ⟨placed, hplaced, h⟩ := bind_eq_ok.mp h
      cases h
      rw [List.map_cons, ih hplaced]

theorem structOf_eq {parts : List (Text × Desc)} {made : Desc} (h : structOf parts = .ok made) :
    ∃ fields, made = struct fields ∧ placeFields parts 0 = .ok fields ∧
      fields.map (fun f => (f.name, f.type)) = parts := by
  obtain ⟨fields, hfields, hmade⟩ := bind_eq_ok.mp h
  cases hmade
  exact ⟨fields, rfl, hfields, placeFields_parts hfields⟩

theorem alignFields_widest {fields : List (Field Desc)} (h : ∀ f ∈ fields, layout.Regular f.type)
    {widest : Num} {w : Nat} (hw : widest.Is w) (hwa : IsAlignment w) :
    ∃ x a, alignFields fields widest = .ok x ∧ x.Is a ∧
      layout.Widest w (fields.map Field.type) a := by
  induction fields generalizing widest w with
  | nil => exact ⟨widest, w, rfl, hw, .nil⟩
  | cons f rest ih =>
      obtain ⟨hf, hrest⟩ := List.forall_mem_cons.mp h
      obtain ⟨y, (hy : align f.type = .ok y), hya⟩ := hf.align
      obtain ⟨x, a, hx, hxa, ha⟩ :=
        ih hrest (hw.max hwa hya hf.isAlignment) (hwa.max hf.isAlignment)
      refine ⟨x, a, ?_, hxa, ha.cons⟩
      rw [alignFields, hy]
      exact hx

theorem alignCtors_widest {ctors : List (Ctor Desc)} (h : ∀ c ∈ ctors, layout.Regular c.type)
    {widest : Num} {w : Nat} (hw : widest.Is w) (hwa : IsAlignment w) :
    ∃ x a, alignCtors ctors widest = .ok x ∧ x.Is a ∧
      layout.Widest w (ctors.map Ctor.type) a := by
  induction ctors generalizing widest w with
  | nil => exact ⟨widest, w, rfl, hw, .nil⟩
  | cons c rest ih =>
      obtain ⟨hc, hrest⟩ := List.forall_mem_cons.mp h
      obtain ⟨y, (hy : align c.type = .ok y), hya⟩ := hc.align
      obtain ⟨x, a, hx, hxa, ha⟩ :=
        ih hrest (hw.max hwa hya hc.isAlignment) (hwa.max hc.isAlignment)
      refine ⟨x, a, ?_, hxa, ha.cons⟩
      rw [alignCtors, hy]
      exact hx

/-- No payload is larger than the largest one. -/
theorem largestPayload_bytes {ctors : List (Ctor Desc)} (h : ∀ c ∈ ctors, layout.Regular c.type)
    {largest : Num} {n : Nat} (hn : largest.Tracks n) :
    ∃ x m, largestPayload ctors largest = .ok x ∧ x.Tracks m ∧ n ≤ m ∧
      ∀ c ∈ ctors, layout.bytes c.type ≤ m := by
  induction ctors generalizing largest n with
  | nil => exact ⟨largest, n, rfl, hn, Nat.le_refl n, by simp⟩
  | cons c rest ih =>
      obtain ⟨hc, hrest⟩ := List.forall_mem_cons.mp h
      obtain ⟨y, (hy : size c.type = .ok y), hyn⟩ := hc.size
      obtain ⟨x, m, hx, hm, hle, hall⟩ := ih hrest (hn.max (tracks_of_is hyn))
      have hmax : n ≤ m ∧ layout.bytes c.type ≤ m := Nat.max_le.mp hle
      refine ⟨x, m, ?_, hm, hmax.1, List.forall_mem_cons.mpr ⟨hmax.2, hall⟩⟩
      rw [largestPayload, hy]
      exact hx

/-- Computed offsets are packed, up to the end of the last field. -/
theorem placeFields_packed {fields : List (Field Desc)} {parts : List (Text × Desc)}
    (h : ∀ part ∈ parts, layout.Regular part.2) {offset : Num} {n : Nat} (hn : offset.Tracks n)
    (hfields : placeFields parts offset = .ok fields) :
    ∃ m, n ≤ m ∧ (∀ y : Num, y.Tracks n → ∃ x, endOfFields fields y = .ok x ∧ x.Tracks m) ∧
      (m < exactLimit → layout.Packed (fields.map fun f => (f.offset, f.type)) n m) := by
  induction parts generalizing fields offset n with
  | nil =>
      cases hfields
      exact ⟨n, Nat.le_refl n, fun y hy => ⟨y, rfl, hy⟩, fun _ => Nat.le_refl n⟩
  | cons part rest ih =>
      obtain ⟨name, type⟩ := part
      obtain ⟨hpart, hrest⟩ := List.forall_mem_cons.mp h
      replace hpart : layout.Regular type := hpart
      obtain ⟨a, (ha : align type = .ok a), haa⟩ := hpart.align
      obtain ⟨x, (hx : size type = .ok x), hxn⟩ := hpart.size
      rw [placeFields, ha] at hfields
      simp only [bind, Except.bind, hx] at hfields
      obtain ⟨placed, hplaced, hfields⟩ := bind_eq_ok.mp hfields
      cases hfields
      have hoffset := hn.alignTo haa hpart.isAlignment
      have hend := hoffset.add (tracks_of_is hxn)
      have hup := le_roundUp (n := n) hpart.isAlignment
      obtain ⟨m, hle, hfinish, hpacked⟩ := ih hrest hend hplaced
      refine ⟨m, by omega, fun y hy => ?_, fun hlimit => ⟨_, hoffset.is (by omega),
        isLeast_roundUp hpart.isAlignment n, hpacked hlimit⟩⟩
      -- the field ends at or behind everything before it, so its end is the last one so far
      have hmax : Nat.max n (roundUp n (layout.alignment type) + layout.bytes type) =
          roundUp n (layout.alignment type) + layout.bytes type := Nat.max_eq_right (by omega)
      obtain ⟨z, hz, hm⟩ := hfinish _ (hmax ▸ hy.max hend)
      refine ⟨z, ?_, hm⟩
      rw [endOfFields, hx]
      exact hz

theorem regular_array {elem : Desc} {length : Num} {count : Nat} (helem : layout.Regular elem)
    (hlength : length.Is count) (bounded : layout.Bounded (array elem (nat length))) :
    layout.Regular (array elem (nat length)) := by
  obtain ⟨x, (hx : size elem = .ok x), hxn⟩ := helem.size
  obtain ⟨y, (hy : align elem = .ok y), hya⟩ := helem.align
  have hsize : size (array elem (nat length)) = .ok (length * x) := by
    rw [size, hx]
    rfl
  have halign : align (array elem (nat length)) = .ok y := by rw [align, hy]
  obtain ⟨-, hmul⟩ := (hlength.mul_tracks hxn).of_small (bounded.small hsize)
  exact Layout.regular_items rfl helem hlength hsize hmul halign hya

theorem regular_struct {parts : List (Text × Desc)} {fields : List (Field Desc)}
    (hparts : ∀ part ∈ parts, layout.Regular part.2) (hfields : placeFields parts 0 = .ok fields)
    (bounded : layout.Bounded (struct fields)) : layout.Regular (struct fields) := by
  have hmap := placeFields_parts hfields
  have htypes : ∀ f ∈ fields, layout.Regular f.type := fun f hf =>
    hparts (f.name, f.type) (hmap ▸ List.mem_map_of_mem hf)
  have hzero := tracks_of_is (is_ofNat (Nat.zero_le exactLimit))
  obtain ⟨m, -, hfinish, hpacked⟩ := placeFields_packed hparts hzero hfields
  obtain ⟨e, he, hem⟩ := hfinish 0 hzero
  obtain ⟨y, a, hy, hya, hwidest⟩ := alignFields_widest htypes (is_ofNat (by decide)) (Or.inl rfl)
  have haa := hwidest.isAlignment (Or.inl rfl) (List.forall_mem_map.mpr htypes)
  have halign : align (struct fields) = .ok y := by rw [align, ← hy]; rfl
  have hsize : size (struct fields) = .ok (e.alignTo y) := by
    rw [size, he, halign]
    rfl
  obtain ⟨hlimit, hround⟩ := (hem.alignTo hya haa).of_small (bounded.small hsize)
  have hup := le_roundUp (n := m) haa
  refine Layout.regular_parts rfl (List.forall_mem_map.mpr htypes) (hpacked (by omega)) ?_ hsize
    hround halign hya
  rw [List.map_map]
  exact hwidest

theorem regular_variant {ctors : List (Ctor Desc)} (htypes : ∀ c ∈ ctors, layout.Regular c.type)
    (bounded : layout.Bounded (variant ctors)) : layout.Regular (variant ctors) := by
  have h4 : IsAlignment 4 := Or.inr (Or.inr (Or.inl rfl))
  have hall := List.forall_mem_map.mpr htypes
  obtain ⟨v, w, hv, hvw, hw⟩ := alignCtors_widest htypes (is_ofNat (by decide)) (Or.inl rfl)
  obtain ⟨y, a, hy, hya, hwidest⟩ := alignCtors_widest htypes tagSize_is h4
  have hwa := hw.isAlignment (Or.inl rfl) hall
  have haa := hwidest.isAlignment h4 hall
  obtain ⟨p, m, hp, hm, -, hle⟩ :=
    largestPayload_bytes htypes (tracks_of_is (is_ofNat (Nat.zero_le exactLimit)))
  have hpayload : payloadOffset ctors = .ok (tagSize.alignTo v) := by
    rw [payloadOffset]
    exact bind_eq_ok.mpr ⟨v, hv, rfl⟩
  have halign : align (variant ctors) = .ok y := by rw [align, hy]
  have hsize : size (variant ctors) = .ok ((tagSize.alignTo v + p).alignTo y) := by
    rw [size, halign, hpayload]
    exact bind_eq_ok.mpr ⟨p, hp, rfl⟩
  have hoffset := (tracks_of_is tagSize_is).alignTo hvw hwa
  obtain ⟨hlimit, hround⟩ :=
    ((hoffset.add hm).alignTo hya haa).of_small (bounded.small hsize)
  have hup := le_roundUp (n := roundUp 4 w + m) haa
  have hnode : layout.node (variant ctors) =
      .ok (.tagged (tagSize.alignTo v) (ctors.map Ctor.type)) :=
    bind_eq_ok.mpr ⟨_, hpayload, rfl⟩
  exact Layout.regular_tagged hnode hall hw hwidest (hoffset.is (by omega))
    (List.forall_mem_map.mpr hle) hsize hround halign hya

/-- A primitive is aligned to its width; a value without bytes may lie anywhere. -/
theorem regular_prim (p : PrimName) : layout.Regular (prim p.name) := by
  have hlimit : p.size ≤ exactLimit := by cases p <;> decide
  have hmax : max p.size 1 < exactLimit := by cases p <;> decide
  have hwidth : p.size = 0 ∨ IsAlignment p.size := by
    cases p <;> simp [PrimName.size, IsAlignment]
  have hsize := primSize_name p
  have hone : (1 : Num).Is 1 := is_ofNat (by decide)
  have halign : align (prim p.name) = .ok ((Num.ofNat p.size).max 1) := by
    rw [align, hsize]
    rfl
  have hnode : layout.node (prim p.name) = .ok (.scalar (.ofNat p.size)) :=
    bind_eq_ok.mpr ⟨_, hsize, rfl⟩
  exact Layout.regular_scalar hnode (is_ofNat hlimit) hwidth (by rw [← hsize]; exact size.eq_1 _)
    halign (((tracks_ofNat p.size).max (tracks_of_is hone)).is hmax)

/-- The alignment of a composed descriptor is defined, however large it is. -/
theorem Composed.align_defined {d : Desc} (h : d.Composed) : ∃ a, d.align = .ok a := by
  induction h with
  | prim p =>
      rw [align, primSize_name]
      exact ⟨_, rfl⟩
  | array helem hlength ih =>
      rw [align]
      exact ih
  | struct hparts hmade ih =>
      obtain ⟨fields, rfl, -, hmap⟩ := structOf_eq hmade
      rw [align]
      exact (alignFields_defined 1).mpr fun f hf =>
        ih (f.name, f.type) (hmap ▸ List.mem_map_of_mem hf)
  | variant hctors ih =>
      rw [align]
      exact (alignCtors_defined tagSize).mpr ih

theorem payloadOffset_defined {ctors : List (Ctor Desc)} (h : ∀ c ∈ ctors, c.type.Composed) :
    ∃ x, payloadOffset ctors = .ok x := by
  obtain ⟨a, ha⟩ := (alignCtors_defined 1).mpr fun c hc => (h c hc).align_defined
  exact ⟨tagSize.alignTo a, bind_eq_ok.mpr ⟨a, ha, rfl⟩⟩

theorem part_array {elem : Desc} {length : Num} {part : Desc} :
    layout.Part (array elem (nat length)) part ↔ part = elem := by
  constructor
  · rintro ⟨_, hnode, hmem⟩
    cases hnode
    exact List.mem_singleton.mp hmem
  · rintro rfl
    exact ⟨_, rfl, List.mem_singleton_self _⟩

theorem part_struct {fields : List (Field Desc)} {part : Desc} :
    layout.Part (struct fields) part ↔ ∃ f ∈ fields, f.type = part := by
  have htypes : (Node.parts (fields.map fun f => (f.offset, f.type))).types =
      fields.map Field.type := List.map_map
  constructor
  · rintro ⟨_, hnode, hmem⟩
    cases hnode
    exact List.mem_map.mp (htypes ▸ hmem)
  · exact fun h => ⟨_, rfl, htypes ▸ List.mem_map.mpr h⟩

theorem part_variant {ctors : List (Ctor Desc)} (h : ∃ x, payloadOffset ctors = .ok x)
    {part : Desc} : layout.Part (variant ctors) part ↔ ∃ c ∈ ctors, c.type = part := by
  obtain ⟨x, hx⟩ := h
  have hnode : layout.node (variant ctors) = .ok (.tagged x (ctors.map Ctor.type)) :=
    bind_eq_ok.mpr ⟨x, hx, rfl⟩
  constructor
  · rintro ⟨_, hother, hmem⟩
    cases hnode.symm.trans hother
    exact List.mem_map.mp hmem
  · exact fun h => ⟨_, hnode, List.mem_map.mpr h⟩

theorem Small.part {d part : Desc} (h : d.Small) (hpart : layout.Part d part) : part.Small := by
  cases h with
  | prim name =>
      obtain ⟨_, hnode, hmem⟩ := hpart
      obtain ⟨width, -, hnode⟩ := bind_eq_ok.mp hnode
      cases hnode
      cases hmem
  | nat value =>
      obtain ⟨_, hnode, -⟩ := hpart
      cases hnode
  | array hsize helem =>
      obtain ⟨_, hnode, hmem⟩ := hpart
      obtain ⟨length, -, hnode⟩ := bind_eq_ok.mp hnode
      cases hnode
      rw [List.mem_singleton.mp hmem]
      exact helem
  | struct hsize hfields =>
      obtain ⟨f, hf, rfl⟩ := part_struct.mp hpart
      exact hfields f hf
  | variant hsize hctors =>
      obtain ⟨_, hnode, hmem⟩ := hpart
      obtain ⟨payload, -, hnode⟩ := bind_eq_ok.mp hnode
      cases hnode
      obtain ⟨c, hc, rfl⟩ := List.mem_map.mp hmem
      exact hctors c hc

theorem Small.size_small {d : Desc} (h : d.Small) {x : Num} (hx : d.size = .ok x) : x.Small := by
  cases h with
  | prim hsize => exact hsize x hx
  | nat value => cases hx
  | array hsize _ => exact hsize x hx
  | struct hsize _ => exact hsize x hx
  | variant hsize _ => exact hsize x hx

theorem Small.bounded {d : Desc} (h : d.Small) : layout.Bounded d :=
  Layout.bounded_of_hereditary (fun _ _ => Small.part) (fun _ h _ => h.size_small) h

theorem Composed.part {d part : Desc} (h : d.Composed) (hpart : layout.Part d part) :
    part.Composed := by
  cases h with
  | prim p =>
      obtain ⟨_, hnode, hmem⟩ := hpart
      obtain ⟨width, -, hnode⟩ := bind_eq_ok.mp hnode
      cases hnode
      cases hmem
  | array helem hlength =>
      rw [part_array.mp hpart]
      exact helem
  | struct hparts hmade =>
      obtain ⟨fields, rfl, -, hmap⟩ := structOf_eq hmade
      obtain ⟨f, hf, rfl⟩ := part_struct.mp hpart
      exact hparts (f.name, f.type) (hmap ▸ List.mem_map_of_mem hf)
  | variant hctors =>
      obtain ⟨c, hc, rfl⟩ := (part_variant (payloadOffset_defined hctors)).mp hpart
      exact hctors c hc

/-- A composed descriptor keeps the rules on its first level. -/
theorem Composed.regular {d : Desc} (h : d.Composed) (bounded : layout.Bounded d) :
    layout.Regular d := by
  induction h with
  | prim p => exact regular_prim p
  | array helem hlength ih =>
      exact regular_array (ih (bounded.part (part_array.mpr rfl))) hlength bounded
  | struct hparts hmade ih =>
      obtain ⟨fields, rfl, hfields, hmap⟩ := structOf_eq hmade
      refine regular_struct (fun part hpart => ih part hpart (bounded.part ?_)) hfields bounded
      obtain ⟨f, hf, rfl⟩ := List.mem_map.mp (hmap.symm ▸ hpart)
      exact part_struct.mpr ⟨f, hf, rfl⟩
  | variant hctors ih =>
      refine regular_variant (fun c hc => ih c hc (bounded.part ?_)) bounded
      exact (part_variant (payloadOffset_defined hctors)).mpr ⟨c, hc, rfl⟩

end Desc

/-! ## Destination types -/

namespace Dest

def layout : Layout Dest where
  size d := .ok d.size
  align d := .ok d.align
  node
    | .prim surface .. => .ok (.scalar surface.size)
    | .array _ elem length _ => .ok (.items elem length)
    | .record _ slots => .ok (.parts (slots.map fun s => (s.offset, s.type)))
    | .variant _ cases payloadOffset _ => .ok (.tagged payloadOffset (cases.map Case.type))

theorem Regular.size_is {d : Dest} (h : layout.Regular d) : d.size.Is d.bytes := by
  obtain ⟨x, hx, hn⟩ := h.size
  cases hx
  exact hn

theorem Regular.align_is {d : Dest} (h : layout.Regular d) : d.align.Is (layout.alignment d) := by
  obtain ⟨x, hx, ha⟩ := h.align
  cases hx
  exact ha

variable {parts : List (Text × Dest)}

theorem widestAlign_widest (h : ∀ part ∈ parts, layout.Regular part.2) {widest : Num} {w : Nat}
    (hw : widest.Is w) (hwa : IsAlignment w) :
    ∃ a, (widestAlign parts widest).Is a ∧ layout.Widest w (parts.map Prod.snd) a := by
  induction parts generalizing widest w with
  | nil => exact ⟨w, hw, .nil⟩
  | cons part rest ih =>
      obtain ⟨hpart, hrest⟩ := List.forall_mem_cons.mp h
      obtain ⟨a, hxa, ha⟩ := ih hrest (hw.max hwa (Regular.align_is hpart) hpart.isAlignment)
        (hwa.max hpart.isAlignment)
      exact ⟨a, hxa, ha.cons⟩

/-- The slots of a record are packed, up to the end of the last one. -/
theorem placeSlots_packed (h : ∀ part ∈ parts, layout.Regular part.2) {offset : Num} {n : Nat}
    (hn : offset.Tracks n) :
    ∃ m, n ≤ m ∧ (placeSlots parts offset).2.Tracks m ∧ (m < exactLimit →
      layout.Packed ((placeSlots parts offset).1.map fun s => (s.offset, s.type)) n m) := by
  induction parts generalizing offset n with
  | nil => exact ⟨n, Nat.le_refl n, hn, fun _ => Nat.le_refl n⟩
  | cons part rest ih =>
      obtain ⟨name, type⟩ := part
      obtain ⟨hpart, hrest⟩ := List.forall_mem_cons.mp h
      replace hpart : layout.Regular type := hpart
      have hoffset := hn.alignTo (Regular.align_is hpart) hpart.isAlignment
      have hend := hoffset.add (tracks_of_is (Regular.size_is hpart))
      have hup := le_roundUp (n := n) hpart.isAlignment
      obtain ⟨m, hle, hm, hpacked⟩ := ih hrest hend
      exact ⟨m, by omega, hm, fun hlimit => ⟨_, hoffset.is (by omega),
        isLeast_roundUp hpart.isAlignment n, hpacked hlimit⟩⟩

theorem regular_ofPrim (p : Prim) : layout.Regular (ofPrim p) := by
  have hlimit : p.size ≤ exactLimit := by cases p <;> decide
  have hmax : max p.size 1 < exactLimit := by cases p <;> decide
  have hwidth : p.size = 0 ∨ IsAlignment p.size := by
    cases p <;> simp [Prim.size, Prim.source, PrimName.size, IsAlignment]
  have hone : (1 : Num).Is 1 := is_ofNat (by decide)
  exact Layout.regular_scalar rfl (is_ofNat hlimit) hwidth rfl rfl
    (((tracks_ofNat p.size).max (tracks_of_is hone)).is hmax)

theorem regular_arrayOf {elem made : Dest} {length : Num} (helem : layout.Regular elem)
    (hmade : arrayOf elem length = .ok made) (bounded : layout.Bounded made) :
    layout.Regular made := by
  obtain ⟨name, count, hcount, rfl⟩ := arrayOf_eq hmade
  obtain ⟨-, hmul⟩ := ((Regular.size_is helem).mul_tracks hcount).of_small (bounded.small rfl)
  rw [Nat.mul_comm] at hmul
  have halign := Regular.align_is helem
  exact Layout.regular_items rfl helem hcount rfl hmul rfl halign

theorem regular_recordOf (hparts : ∀ part ∈ parts, layout.Regular part.2)
    (bounded : layout.Bounded (recordOf parts)) : layout.Regular (recordOf parts) := by
  have hmap := placeSlots_parts parts 0
  have htypes : ∀ s ∈ (placeSlots parts 0).1, layout.Regular s.type := fun s hs =>
    hparts (s.name, s.type) (hmap ▸ List.mem_map_of_mem hs)
  obtain ⟨m, -, hm, hpacked⟩ :=
    placeSlots_packed hparts (tracks_of_is (is_ofNat (Nat.zero_le exactLimit)))
  obtain ⟨a, ha, hwidest⟩ := widestAlign_widest hparts (is_ofNat (by decide)) (Or.inl rfl)
  have haa := hwidest.isAlignment (Or.inl rfl) (List.forall_mem_map.mpr hparts)
  obtain ⟨hlimit, hround⟩ := (hm.alignTo ha haa).of_small (bounded.small rfl)
  have hup := le_roundUp (n := m) haa
  refine Layout.regular_parts rfl (List.forall_mem_map.mpr htypes) (hpacked (by omega)) ?_ rfl
    hround rfl ha
  rw [← hmap, List.map_map] at hwidest
  rw [List.map_map]
  exact hwidest

theorem regular_variantOf {ids : List (Text × Num)} {made : Dest}
    (hparts : ∀ part ∈ parts, layout.Regular part.2) (hmade : variantOf parts ids = .ok made)
    (bounded : layout.Bounded made) : layout.Regular made := by
  have h4 : IsAlignment 4 := Or.inr (Or.inr (Or.inl rfl))
  have hall := List.forall_mem_map.mpr hparts
  obtain ⟨name, cases, hcases, rfl⟩ := variantOf_eq hmade
  obtain ⟨_, rfl, hnew, -⟩ := makeCases_spec hcases List.Pairwise.nil
  have htypes : cases.map Case.type = parts.map Prod.snd := by
    rw [← hnew, List.map_map]
    rfl
  obtain ⟨w, hvw, hw⟩ := widestAlign_widest hparts (is_ofNat (by decide)) (Or.inl rfl)
  have hwa := hw.isAlignment (Or.inl rfl) hall
  have hwidest := Desc.tagSize_is.max h4 hvw hwa
  have haa := h4.max hwa
  obtain ⟨m, hm, -, hle⟩ := largest_tracks (fun part hpart => Regular.size_is (hparts part hpart))
    (tracks_of_is (is_ofNat (Nat.zero_le exactLimit)))
  have hoffset := (tracks_of_is Desc.tagSize_is).alignTo hvw hwa
  obtain ⟨hlimit, hround⟩ :=
    ((hoffset.add hm).alignTo hwidest haa).of_small (bounded.small rfl)
  have hup := le_roundUp (n := roundUp 4 w + m) haa
  refine Layout.regular_tagged rfl (htypes ▸ hall) (htypes ▸ hw)
    (htypes ▸ hw.max (by decide)) (hoffset.is (by omega)) ?_ rfl hround rfl hwidest
  exact htypes ▸ List.forall_mem_map.mpr hle

theorem part_record {slots : List (Slot Dest)} {surface : Surface} {part : Dest} :
    layout.Part (record surface slots) part ↔ ∃ s ∈ slots, s.type = part := by
  have htypes : (Node.parts (slots.map fun s => (s.offset, s.type))).types =
      slots.map Slot.type := List.map_map
  constructor
  · rintro ⟨_, hnode, hmem⟩
    cases hnode
    exact List.mem_map.mp (htypes ▸ hmem)
  · exact fun h => ⟨_, rfl, htypes ▸ List.mem_map.mpr h⟩

theorem part_recordOf {part : Dest} :
    layout.Part (recordOf parts) part ↔ ∃ q ∈ parts, q.2 = part := by
  have hmap := placeSlots_parts parts 0
  have hrecord : layout.Part (recordOf parts) part ↔
      ∃ s ∈ (placeSlots parts 0).1, s.type = part := part_record
  rw [hrecord]
  constructor
  · rintro ⟨s, hs, rfl⟩
    exact ⟨(s.name, s.type), hmap ▸ List.mem_map_of_mem hs, rfl⟩
  · rintro ⟨q, hq, rfl⟩
    obtain ⟨s, hs, rfl⟩ := List.mem_map.mp (hmap.symm ▸ hq)
    exact ⟨s, hs, rfl⟩

theorem part_variantOf {ids : List (Text × Num)} {made part : Dest}
    (hmade : variantOf parts ids = .ok made) :
    layout.Part made part ↔ ∃ q ∈ parts, q.2 = part := by
  obtain ⟨name, cases, hcases, rfl⟩ := variantOf_eq hmade
  obtain ⟨_, rfl, hnew, -⟩ := makeCases_spec hcases List.Pairwise.nil
  have htypes : cases.map Case.type = parts.map Prod.snd := by
    rw [← hnew, List.map_map]
    rfl
  constructor
  · rintro ⟨_, hnode, hmem⟩
    cases hnode
    exact List.mem_map.mp (htypes ▸ hmem)
  · exact fun h => ⟨_, rfl, htypes.symm ▸ List.mem_map.mpr h⟩

theorem part_arrayOf {elem made part : Dest} {length : Num}
    (hmade : arrayOf elem length = .ok made) :
    layout.Part made part ↔ part = elem := by
  obtain ⟨name, count, -, rfl⟩ := arrayOf_eq hmade
  constructor
  · rintro ⟨_, hnode, hmem⟩
    cases hnode
    exact List.mem_singleton.mp hmem
  · rintro rfl
    exact ⟨_, rfl, List.mem_singleton_self _⟩

theorem Small.part {d part : Dest} (h : d.Small) (hpart : layout.Part d part) : part.Small := by
  obtain ⟨_, hnode, hmem⟩ := hpart
  cases h with
  | prim hsize =>
      cases hnode
      cases hmem
  | array hsize hlength helem =>
      cases hnode
      rw [List.mem_singleton.mp hmem]
      exact helem
  | record hsize hslots =>
      obtain ⟨s, hs, rfl⟩ := part_record.mp ⟨_, hnode, hmem⟩
      exact hslots s hs
  | variant hsize hcases =>
      cases hnode
      obtain ⟨c, hc, rfl⟩ := List.mem_map.mp hmem
      exact hcases c hc

theorem Small.bounded {d : Dest} (h : d.Small) : layout.Bounded d := by
  refine Layout.bounded_of_hereditary (fun _ _ => Small.part) (fun d hd x hx => ?_) h
  cases hx
  cases hd <;> assumption

theorem Made.part {d part : Dest} (h : d.Made) (hpart : layout.Part d part) : part.Made := by
  cases h with
  | prim p =>
      obtain ⟨_, hnode, hmem⟩ := hpart
      cases hnode
      cases hmem
  | array helem hmade =>
      rw [(part_arrayOf hmade).mp hpart]
      exact helem
  | record names hparts =>
      obtain ⟨q, hq, rfl⟩ := part_recordOf.mp hpart
      exact hparts q hq
  | variant names hparts hmade =>
      obtain ⟨q, hq, rfl⟩ := (part_variantOf hmade).mp hpart
      exact hparts q hq

/-- A type that the combinators make keeps the rules on its first level. -/
theorem Made.regular {d : Dest} (h : d.Made) (bounded : layout.Bounded d) :
    layout.Regular d := by
  induction h with
  | prim p => exact regular_ofPrim p
  | array helem hmade ih =>
      exact regular_arrayOf (ih (bounded.part ((part_arrayOf hmade).mpr rfl))) hmade bounded
  | record names hparts ih =>
      exact regular_recordOf
        (fun q hq => ih q hq (bounded.part (part_recordOf.mpr ⟨q, hq, rfl⟩))) bounded
  | variant names hparts hmade ih =>
      exact regular_variantOf
        (fun q hq => ih q hq (bounded.part ((part_variantOf hmade).mpr ⟨q, hq, rfl⟩))) hmade bounded

end Dest

/-! ## Every depth -/

/-- **Source and destination types are laid out by the rules of C**: on every level
of a composed descriptor, and of a type that the combinators make, the alignment
is the widest one inside and divides the size, all slots lie inside the value at
multiples of their alignments, fields are packed in their order and payloads stand
at the first suitable position behind the tag. So in aligned memory every scalar is
aligned. The levels have the parts, and the lengths, that they were made from. -/
theorem layouts_conform :
    (∀ desc : Desc, desc.Composed → Desc.layout.Bounded desc → Desc.layout.Conforms desc) ∧
    (∀ parts made, Desc.structOf parts = .ok made →
      ∃ fields, made = .struct fields ∧ fields.map (fun f => (f.name, f.type)) = parts) ∧
    (∀ dest : Dest, dest.Made → Dest.layout.Bounded dest → Dest.layout.Conforms dest) ∧
    (∀ parts, ∃ surface slots, Dest.recordOf parts = .record surface slots ∧
      slots.map (fun s => (s.name, s.type)) = parts) ∧
    (∀ elem length made, Dest.arrayOf elem length = .ok made →
      ∃ surface count, made = .array surface elem length count ∧ length.Is count) ∧
    (∀ parts ids made, Dest.variantOf parts ids = .ok made →
      ∃ surface cases payload, made = .variant surface cases payload payload ∧
        cases.map (fun c => (c.name, c.type)) = parts) := by
  refine ⟨fun desc composed bounded => ?_, fun parts made hmade => ?_,
    fun dest made bounded => ?_, fun parts => ⟨_, _, rfl, Dest.placeSlots_parts parts 0⟩,
    fun elem length made hmade => ?_, fun parts ids made hmade => ?_⟩
  · exact Layout.conforms_of_hereditary (fun _ _ => Desc.Composed.part)
      (fun _ => Desc.Composed.regular) composed bounded
  · obtain ⟨fields, rfl, -, hmap⟩ := Desc.structOf_eq hmade
    exact ⟨fields, rfl, hmap⟩
  · exact Layout.conforms_of_hereditary (fun _ _ => Dest.Made.part) (fun _ => Dest.Made.regular)
      made bounded
  · obtain ⟨name, count, hcount, rfl⟩ := Dest.arrayOf_eq hmade
    exact ⟨_, count, rfl, hcount⟩
  · obtain ⟨name, cases, hcases, rfl⟩ := Dest.variantOf_eq hmade
    obtain ⟨new, rfl, hmap, -⟩ := Dest.makeCases_spec hcases List.Pairwise.nil
    exact ⟨_, _, _, rfl, hmap⟩

namespace Sample

/-- A flag, a real number that may be missing, and a count. -/
def entryParts : List (Text × Desc) :=
  [("flag", .prim "byte"),
    ("value", .variant [⟨"missing", 0, .prim "unit"⟩, ⟨"real", 9, .prim "double"⟩]),
    ("count", .prim "short")]

def entry : Desc :=
  (Desc.structOf entryParts).toOption.get (by decide +kernel)

def entries : Desc :=
  .array entry (.nat 3)

theorem entry_eq : Desc.structOf entryParts = .ok entry :=
  eq_ok_get _

theorem entries_composed : entries.Composed := by
  refine .array (.struct ?_ entry_eq) (is_ofNat (n := 3) (by decide))
  have hvalue : (Desc.variant
      [⟨"missing", 0, .prim "unit"⟩, ⟨"real", 9, .prim "double"⟩]).Composed := by
    refine .variant ?_
    simpa using ⟨Desc.Composed.prim .unit, Desc.Composed.prim .double⟩
  simpa [entryParts] using
    ⟨Desc.Composed.prim .byte, hvalue, Desc.Composed.prim .short⟩

theorem entries_small : entries.Small := by decide +kernel

end Sample

/-- Three entries of 32 bytes each: the flag at 0, the value at 8 and the count at 24. -/
theorem layouts_conform_sample :
    Sample.entries.Composed ∧ Desc.layout.Bounded Sample.entries ∧
      Desc.layout.bytes Sample.entries = 96 ∧ Desc.layout.alignment Sample.entries = 8 ∧
      Desc.layout.Conforms Sample.entries ∧ Desc.structOf Sample.entryParts = .ok Sample.entry ∧
      (∃ fields, Sample.entry = .struct fields ∧
        fields.map (fun f => (f.name, f.type)) = Sample.entryParts) ∧
      Sample.dest.Made ∧ Dest.layout.Bounded Sample.dest ∧ Dest.layout.Conforms Sample.dest := by
  obtain ⟨hdesc, hstruct, hdest, -⟩ := layouts_conform
  exact ⟨Sample.entries_composed, Sample.entries_small.bounded, by decide +kernel,
    by decide +kernel, hdesc _ Sample.entries_composed Sample.entries_small.bounded,
    Sample.entry_eq, hstruct _ _ Sample.entry_eq, Sample.made, Sample.small.bounded,
    hdest _ Sample.made Sample.small.bounded⟩

end Relayout

import Relayout.Proofs.Matching

/-!
# The mirror of a destination type

The mirror of a type is the source type that lays a value out in the same way:
the source primitive of the same layout, an array of as many mirrored items, a
struct of the mirrored slots in order, and a variant with the same tags. Its
sizes, alignments and offsets are worked out by the rules for source types. They
come out as those of the destination type at every depth.
-/

namespace Relayout.Dest

open Relayout.Num

mutual

/-- The source type that lays a value out as the destination type does. -/
def mirror : Dest → Except Cause Desc
  | .prim _ source _ _ => .ok (.prim source)
  | .array _ elem length _ => do return .array (← mirror elem) (.nat length)
  | .record _ slots => do Desc.structOf (← mirrorSlots slots)
  | .variant _ cases _ _ => do return .variant (← mirrorCases cases)

/-- The mirrors of the slots, in order and under their names. -/
def mirrorSlots : List (Slot Dest) → Except Cause (List (Text × Desc))
  | [] => .ok []
  | s :: rest => do return (s.name, ← mirror s.type) :: (← mirrorSlots rest)

/-- The mirrors of the cases, in order and with their tags. -/
def mirrorCases : List (Case Dest) → Except Cause (List (Ctor Desc))
  | [] => .ok []
  | c :: rest => do
    return ⟨c.name, .ofNat c.id.toNat, ← mirror c.type⟩ :: (← mirrorCases rest)

end

/-! ## Equal layouts -/

/-- Both types have the same size and the same alignment, as exact numbers. -/
structure SameShape (d : Dest) (desc : Desc) : Prop where
  size : ∃ x n, desc.size = .ok x ∧ x.Is n ∧ d.size.Is n ∧ n < exactLimit
  align : ∃ x a, desc.align = .ok x ∧ x.Is a ∧ d.align.Is a

/-- A source type with the same layout at every depth: sizes, alignments, the
offsets of fields and the offset of the payload. -/
inductive Mirrors : Dest → Desc → Prop
  | prim {p : Prim} (hshape : SameShape (ofPrim p) (.prim p.source.name)) :
      Mirrors (ofPrim p) (.prim p.source.name)
  | array {surface : Surface} {elem : Dest} {length : Num} {count : Nat} {elemDesc : Desc}
      (hshape : SameShape (.array surface elem length count) (.array elemDesc (.nat length)))
      (hlength : length.Is count) (helem : Mirrors elem elemDesc) :
      Mirrors (.array surface elem length count) (.array elemDesc (.nat length))
  | record {surface : Surface} {slots : List (Slot Dest)} {fields : List (Field Desc)}
      (hshape : SameShape (.record surface slots) (.struct fields))
      (hnames : (slots.map Slot.name).Nodup)
      (hoffsets : List.Forall₂ (fun s f => s.name = f.name ∧ ∃ o, s.offset.Is o ∧ f.offset.Is o)
        slots fields)
      (htypes : ∀ p ∈ slots.zip fields, Mirrors p.1.type p.2.type) :
      Mirrors (.record surface slots) (.struct fields)
  | variant {surface : Surface} {cases : List (Case Dest)} {payloadOffset decodedAt : Num}
      {ctors : List (Ctor Desc)}
      (hshape : SameShape (.variant surface cases payloadOffset decodedAt) (.variant ctors))
      (hpayload : ∃ x n, Desc.payloadOffset ctors = .ok x ∧ x.Is n ∧ payloadOffset.Is n)
      (hnames : (cases.map Case.name).Nodup)
      (htags : List.Forall₂ (fun c ctor => c.name = ctor.name ∧ ctor.id = .ofNat c.id.toNat)
        cases ctors)
      (htypes : ∀ p ∈ cases.zip ctors, Mirrors p.1.type p.2.type) :
      Mirrors (.variant surface cases payloadOffset decodedAt) (.variant ctors)

variable {d : Dest} {desc : Desc}

theorem Mirrors.shape (h : d.Mirrors desc) : d.SameShape desc := by
  cases h <;> assumption

theorem SameShape.bytes_eq (h : d.SameShape desc) : desc.bytes = d.bytes := by
  obtain ⟨x, n, hx, hn, hd, -⟩ := h.size
  rw [Desc.bytes_of_is hx hn, bytes_of_is hd]

theorem SameShape.size_is (h : d.SameShape desc) : ∃ x, desc.size = .ok x ∧ x.Is d.bytes := by
  obtain ⟨x, n, hx, hn, hd, -⟩ := h.size
  exact ⟨x, hx, bytes_of_is hd ▸ hn⟩

theorem SameShape.align_is (h : d.SameShape desc) :
    ∃ x, desc.align = .ok x ∧ x.Is desc.alignment ∧ d.align.Is desc.alignment ∧
      IsAlignment desc.alignment := by
  obtain ⟨x, a, hx, ha, hd⟩ := h.align
  obtain ⟨haa, hx'⟩ := Desc.alignment_spec (Desc.definite_of_is hx ha) hx
  exact ⟨x, hx, hx', ha.unique hx' ▸ hd, haa⟩

/-! ## Alignments -/

/-- The widest of `w` and the alignments of the payloads. -/
def widestPayload (ctors : List (Ctor Desc)) (w : Nat) : Nat :=
  ctors.foldl (fun widest c => widest.max c.type.alignment) w

theorem widestPayload_max (ctors : List (Ctor Desc)) (v w : Nat) :
    widestPayload ctors (v.max w) = v.max (widestPayload ctors w) := by
  induction ctors generalizing w with
  | nil => rfl
  | cons c rest ih =>
      have hassoc : Nat.max (Nat.max v w) c.type.alignment =
          Nat.max v (Nat.max w c.type.alignment) := Nat.max_assoc v w _
      rw [widestPayload, List.foldl_cons, hassoc]
      exact ih _

variable {parts : List (Text × Dest)}

theorem alignFields_same {fields : List (Field Desc)}
    (h : List.Forall₂ (fun part f => SameShape part.2 f.type) parts fields) {x y : Num} {w : Nat}
    (hx : x.Is w) (hy : y.Is w) (hw : IsAlignment w) :
    ∃ z a, Desc.alignFields fields x = .ok z ∧ z.Is a ∧ (widestAlign parts y).Is a ∧
      IsAlignment a := by
  induction h generalizing x y w with
  | nil => exact ⟨x, w, rfl, hx, hy, hw⟩
  | @cons part f parts fields hpart _ ih =>
      obtain ⟨b, hb, hbx, hby, hba⟩ := hpart.align_is
      obtain ⟨z, a, hz, hza, hya, haa⟩ := ih (hx.max hw hbx hba) (hy.max hw hby hba) (hw.max hba)
      refine ⟨z, a, ?_, hza, hya, haa⟩
      rw [Desc.alignFields, hb]
      exact hz

theorem alignCtors_same {ctors : List (Ctor Desc)}
    (h : List.Forall₂ (fun part c => SameShape part.2 c.type) parts ctors) {x y : Num} {w : Nat}
    (hx : x.Is w) (hy : y.Is w) (hw : IsAlignment w) :
    ∃ z, Desc.alignCtors ctors x = .ok z ∧ z.Is (widestPayload ctors w) ∧
      (widestAlign parts y).Is (widestPayload ctors w) ∧ IsAlignment (widestPayload ctors w) := by
  induction h generalizing x y w with
  | nil => exact ⟨x, rfl, hx, hy, hw⟩
  | @cons part c parts ctors hpart _ ih =>
      obtain ⟨b, hb, hbx, hby, hba⟩ := hpart.align_is
      obtain ⟨z, hz, hzw⟩ := ih (hx.max hw hbx hba) (hy.max hw hby hba) (hw.max hba)
      refine ⟨z, ?_, hzw⟩
      rw [Desc.alignCtors, hb]
      exact hz

/-! ## Sizes -/

theorem largestPayload_same {ctors : List (Ctor Desc)}
    (h : List.Forall₂ (fun part c => SameShape part.2 c.type) parts ctors) {x y : Num} {n : Nat}
    (hx : x.Tracks n) (hy : y.Tracks n) :
    ∃ z m, Desc.largestPayload ctors x = .ok z ∧ z.Tracks m ∧
      (parts.foldl (fun m part => m.max part.2.size) y).Tracks m := by
  induction h generalizing x y n with
  | nil => exact ⟨x, n, rfl, hx, hy⟩
  | @cons part c parts ctors hpart _ ih =>
      obtain ⟨b, k, hb, hbx, hby, -⟩ := hpart.size
      obtain ⟨z, m, hz, hzm, hym⟩ := ih (hx.max (tracks_of_is hbx)) (hy.max (tracks_of_is hby))
      refine ⟨z, m, ?_, hzm, hym⟩
      rw [Desc.largestPayload, hb]
      exact hz

/-- Both ways of laying parts one after the other come to the same offsets and
the same end, and no field of the struct reaches past it. -/
theorem placeFields_same {named : List (Text × Desc)}
    (h : List.Forall₂ (fun part q => part.1 = q.1 ∧ SameShape part.2 q.2) parts named) {x y : Num}
    {n : Nat} (hx : x.Tracks n) (hy : y.Tracks n) :
    ∃ fields m, Desc.placeFields named x = .ok fields ∧
      fields.map (fun f => (f.name, f.type)) = named ∧ (placeSlots parts y).2.Tracks m ∧ n ≤ m ∧
      (∀ z : Num, z.Tracks n → ∃ e, Desc.endOfFields fields z = .ok e ∧ e.Tracks m) ∧
      (m < exactLimit →
        List.Forall₂ (fun s f => s.name = f.name ∧ ∃ o, s.offset.Is o ∧ f.offset.Is o)
          (placeSlots parts y).1 fields) := by
  induction h generalizing x y n with
  | nil =>
      refine ⟨[], n, rfl, rfl, hy, Nat.le_refl n, fun z hz => ⟨z, ?_, hz⟩, fun _ => .nil⟩
      rw [Desc.endOfFields]
  | @cons part q parts named hpart _ ih =>
      obtain ⟨name, type⟩ := part
      obtain ⟨name', desc⟩ := q
      obtain ⟨rfl, hshape⟩ := hpart
      replace hshape : SameShape type desc := hshape
      obtain ⟨b, hb, hbx, hby, hba⟩ := hshape.align_is
      obtain ⟨e, k, he, hek, hdk, -⟩ := hshape.size
      have hxo := hx.alignTo hbx hba
      have hyo := hy.alignTo hby hba
      have hup := le_roundUp (n := n) hba
      obtain ⟨fields, m, hfields, hmap, hm, hle, hend, hplaced⟩ :=
        ih (hxo.add (tracks_of_is hek)) (hyo.add (tracks_of_is hdk))
      refine ⟨⟨name, x.alignTo b, desc⟩ :: fields, m, ?_, ?_, hm, by omega, fun z hz => ?_,
        fun hlimit => .cons ⟨rfl, roundUp n desc.alignment, hyo.is (by omega), hxo.is (by omega)⟩
          (hplaced hlimit)⟩
      · rw [Desc.placeFields, hb]
        simp only [bind, Except.bind, he, hfields, pure, Except.pure]
      · rw [List.map_cons, hmap]
      · have hmax : Nat.max n (roundUp n desc.alignment + k) = roundUp n desc.alignment + k :=
          Nat.max_eq_right (by omega)
        obtain ⟨e', he', hm'⟩ := hend _ (hmax ▸ hz.max (hxo.add (tracks_of_is hek)))
        refine ⟨e', ?_, hm'⟩
        rw [Desc.endOfFields, he]
        exact he'

/-! ## The mirror of each kind of type -/

theorem prim_same (p : Prim) : SameShape (ofPrim p) (.prim p.source.name) := by
  have hsize : Desc.primSize p.source.name = .ok (.ofNat p.size) := Desc.primSize_name p.source
  have hlimit : p.size < exactLimit := by cases p <;> decide
  obtain ⟨a, -, ha⟩ := align_of_made (.prim p)
  refine ⟨⟨.ofNat p.size, p.size, ?_, is_ofNat hlimit.le, is_ofNat hlimit.le, hlimit⟩,
    (ofPrim p).align, a, ?_, ha, ha⟩
  · rw [Desc.size, hsize]
  · rw [Desc.align, hsize]
    rfl

theorem array_same {elem : Dest} {elemDesc : Desc} (h : SameShape elem elemDesc) {name : Text}
    {length : Num} {count : Nat} (hlength : length.Is count)
    (hsmall : (elem.size * length).Small) :
    SameShape (.array ⟨name, elem.size * length, elem.align⟩ elem length count)
      (.array elemDesc (.nat length)) := by
  obtain ⟨x, n, hx, hn, hd, -⟩ := h.size
  obtain ⟨hlimit, his⟩ := (hd.mul_tracks hlength).of_small hsmall
  have hmul := hlength.mul_tracks hn
  rw [Nat.mul_comm] at hmul
  refine ⟨⟨length * x, n * count, ?_, hmul.is hlimit, his, hlimit⟩, ?_⟩
  · rw [Desc.size, hx]
    rfl
  · obtain ⟨y, a, hy, ha, ha'⟩ := h.align
    exact ⟨y, a, by rw [Desc.align, hy], ha, ha'⟩

theorem map_names {τ α : Type} {l : List α} {name : α → Text} {type : α → τ}
    {parts : List (Text × τ)} (h : l.map (fun a => (name a, type a)) = parts) :
    l.map name = parts.map Prod.fst := by
  subst h
  rw [List.map_map]
  rfl

theorem record_mirrors {named : List (Text × Desc)} (names : (parts.map Prod.fst).Nodup)
    (h : List.Forall₂ (fun part q => part.1 = q.1 ∧ Mirrors part.2 q.2) parts named)
    (hsmall : (recordOf parts).size.Small) :
    ∃ fields, Desc.structOf named = .ok (.struct fields) ∧
      Mirrors (recordOf parts) (.struct fields) := by
  have hone : (1 : Num).Is 1 := is_ofNat (by decide)
  have hzero : (0 : Num).Is 0 := is_ofNat (Nat.zero_le _)
  have hshapes := h.imp fun part q hpart => And.intro hpart.1 hpart.2.shape
  obtain ⟨fields, m, hfields, hmap, hm, -, hend, hplaced⟩ :=
    placeFields_same hshapes (tracks_of_is hzero) (tracks_of_is hzero)
  have hparts := placeSlots_parts parts 0
  -- slot by slot, the fields bear the mirrors of the parts
  have hpairs : List.Forall₂ (fun s f => Mirrors s.type f.type) (placeSlots parts 0).1 fields := by
    have hall := h.imp fun part q hpart => hpart.2
    rw [← hparts, ← hmap] at hall
    have hslots := List.forall₂_map_left_iff.mp hall
    have hfields := List.forall₂_map_right_iff.mp hslots
    exact hfields
  have htypes : List.Forall₂ (fun part f => SameShape part.2 f.type) parts fields := by
    rw [← hparts]
    exact List.forall₂_map_left_iff.mpr (hpairs.imp fun s f hsf => hsf.shape)
  have hnames : (placeSlots parts 0).1.map Slot.name = parts.map Prod.fst := map_names hparts
  obtain ⟨e, he, hem⟩ := hend 0 (tracks_of_is hzero)
  obtain ⟨z, a, hz, hza, hya, haa⟩ := alignFields_same htypes hone hone (Or.inl rfl)
  obtain ⟨hlimit, his⟩ := (hm.alignTo hya haa).of_small hsmall
  have hup := le_roundUp (n := m) haa
  refine ⟨fields, by rw [Desc.structOf, hfields]; rfl, .record ⟨?_, ?_⟩ (hnames ▸ names)
    (hplaced (by omega)) fun p hp => List.forall₂_zip hpairs hp⟩
  · refine ⟨e.alignTo z, roundUp m a, ?_, (hem.alignTo hza haa).is hlimit, his, hlimit⟩
    rw [Desc.size, he, Desc.align]
    simp only [bind, Except.bind, hz, pure, Except.pure]
  · exact ⟨z, a, by rw [Desc.align, hz], hza, hya⟩

theorem variant_mirrors {ids : List (Text × Num)} {made : Dest}
    (names : (parts.map Prod.fst).Nodup) (hmade : variantOf parts ids = .ok made)
    {surface : Surface} {cases : List (Case Dest)} {payloadOffset decodedAt : Num}
    (heq : made = .variant surface cases payloadOffset decodedAt) {ctors : List (Ctor Desc)}
    (htags : List.Forall₂ (fun c ctor => c.name = ctor.name ∧ ctor.id = .ofNat c.id.toNat)
      cases ctors)
    (hpairs : List.Forall₂ (fun c ctor => Mirrors c.type ctor.type) cases ctors)
    (hsmall : made.size.Small) : Mirrors made (.variant ctors) := by
  have hone : (1 : Num).Is 1 := is_ofNat (by decide)
  have hzero : (0 : Num).Is 0 := is_ofNat (Nat.zero_le _)
  have hfour := Desc.tagSize_is
  have h1 : IsAlignment 1 := Or.inl rfl
  have h4 : IsAlignment 4 := Or.inr (Or.inr (Or.inl rfl))
  obtain ⟨name, new, hnew, rfl⟩ := variantOf_eq hmade
  cases heq
  obtain ⟨_, rfl, hparts, -⟩ := makeCases_spec hnew List.Pairwise.nil
  have htypes : List.Forall₂ (fun part c => SameShape part.2 c.type) parts ctors := by
    rw [← hparts]
    exact List.forall₂_map_left_iff.mpr (hpairs.imp fun c ctor hc => hc.shape)
  have hnames : cases.map Case.name = parts.map Prod.fst := map_names hparts
  -- counted from the tag, the widest alignment is the wider of the tag's and the payloads'
  obtain ⟨z, hz, hza, hya, haa⟩ := alignCtors_same htypes hone hone h1
  obtain ⟨z', hz', hza', -, haa'⟩ := alignCtors_same htypes hfour hfour h4
  have hwidest : widestPayload ctors 4 = Nat.max 4 (widestPayload ctors 1) :=
    widestPayload_max ctors 4 1
  have halign := hfour.max h4 hya haa
  rw [← hwidest] at halign
  obtain ⟨l, m, hl, hlm, hym⟩ := largestPayload_same htypes (tracks_of_is hzero) (tracks_of_is hzero)
  have hstart := (tracks_of_is hfour).alignTo hza haa
  have hstart' := (tracks_of_is hfour).alignTo hya haa
  obtain ⟨hlimit, his⟩ := ((hstart'.add hym).alignTo halign haa').of_small hsmall
  have hup := le_roundUp (n := roundUp 4 (widestPayload ctors 1) + m) haa'
  have hoffset : Desc.payloadOffset ctors = .ok (Desc.tagSize.alignTo z) := by
    rw [Desc.payloadOffset, hz]
    rfl
  refine .variant ⟨?_, ?_⟩ ⟨_, _, hoffset, hstart.is (by omega), hstart'.is (by omega)⟩
    (hnames ▸ names) htags fun p hp => List.forall₂_zip hpairs hp
  · refine ⟨(Desc.tagSize.alignTo z + l).alignTo z', _, ?_, ((hstart.add hlm).alignTo hza' haa').is hlimit,
      his, hlimit⟩
    rw [Desc.size, hl, hoffset, Desc.align, hz']
    rfl
  · exact ⟨z', _, by rw [Desc.align, hz'], hza', halign⟩

/-! ## Every type has a mirror -/

theorem mirrorSlots_ok {slots : List (Slot Dest)}
    (h : ∀ s ∈ slots, ∃ desc, s.type.mirror = .ok desc ∧ Mirrors s.type desc) :
    ∃ named, mirrorSlots slots = .ok named ∧
      List.Forall₂ (fun s q => s.name = q.1 ∧ Mirrors s.type q.2) slots named := by
  induction slots with
  | nil => exact ⟨[], rfl, .nil⟩
  | cons s rest ih =>
      obtain ⟨desc, hdesc, hmirrors⟩ := h s List.mem_cons_self
      obtain ⟨named, hnamed, hrest⟩ := ih fun g hg => h g (List.mem_cons_of_mem _ hg)
      refine ⟨(s.name, desc) :: named, ?_, .cons ⟨rfl, hmirrors⟩ hrest⟩
      rw [mirrorSlots, hdesc, hnamed]
      rfl

theorem mirrorCases_ok {cases : List (Case Dest)}
    (h : ∀ c ∈ cases, ∃ desc, c.type.mirror = .ok desc ∧ Mirrors c.type desc) :
    ∃ ctors, mirrorCases cases = .ok ctors ∧
      List.Forall₂ (fun c ctor => c.name = ctor.name ∧ ctor.id = .ofNat c.id.toNat) cases ctors ∧
      List.Forall₂ (fun c ctor => Mirrors c.type ctor.type) cases ctors := by
  induction cases with
  | nil => exact ⟨[], rfl, .nil, .nil⟩
  | cons c rest ih =>
      obtain ⟨desc, hdesc, hmirrors⟩ := h c List.mem_cons_self
      obtain ⟨ctors, hctors, htags, hrest⟩ := ih fun g hg => h g (List.mem_cons_of_mem _ hg)
      refine ⟨⟨c.name, .ofNat c.id.toNat, desc⟩ :: ctors, ?_, .cons ⟨rfl, rfl⟩ htags,
        .cons hmirrors hrest⟩
      rw [mirrorCases, hdesc, hctors]
      rfl

/-- **A type and its mirror have the same layout at every depth.** -/
theorem exists_mirror {d : Dest} (made : d.Made) (small : d.Small) :
    ∃ desc, d.mirror = .ok desc ∧ d.Mirrors desc := by
  induction made with
  | prim p => exact ⟨.prim p.source.name, by rw [ofPrim, mirror], .prim (prim_same p)⟩
  | array helem hmade ih =>
      obtain ⟨name, count, hcount, rfl⟩ := arrayOf_eq hmade
      cases small with
      | array hsize _ hsmall =>
          obtain ⟨desc, hdesc, hmirrors⟩ := ih hsmall
          refine ⟨.array desc (.nat _), ?_, .array (array_same hmirrors.shape hcount hsize) hcount
            hmirrors⟩
          rw [mirror, hdesc]
          rfl
  | @record parts names hparts ih =>
      cases small with
      | record hsize hslots =>
          have hmap := placeSlots_parts parts 0
          obtain ⟨named, hnamed, hpairs⟩ := mirrorSlots_ok
            fun s (hs : s ∈ (placeSlots parts 0).1) => ih _ (hmap ▸ List.mem_map_of_mem hs) (hslots s hs)
          have hall : List.Forall₂ (fun part q => part.1 = q.1 ∧ Mirrors part.2 q.2) parts named := by
            rw [← hmap]
            exact List.forall₂_map_left_iff.mpr hpairs
          obtain ⟨fields, hfields, hmirrors⟩ := record_mirrors names hall hsize
          refine ⟨.struct fields, ?_, hmirrors⟩
          rw [recordOf, mirror, hnamed]
          exact hfields
  | @variant parts ids made names hparts hmade ih =>
      obtain ⟨name, cases, hcases, rfl⟩ := variantOf_eq hmade
      obtain ⟨_, rfl, hnew, -⟩ := makeCases_spec hcases List.Pairwise.nil
      cases small with
      | variant hsize hsmall =>
          obtain ⟨ctors, hctors, htags, hpairs⟩ := mirrorCases_ok
            fun c (hc : c ∈ cases) => ih _ (hnew ▸ List.mem_map_of_mem hc) (hsmall c hc)
          refine ⟨.variant ctors, ?_, variant_mirrors names hmade rfl htags hpairs hsize⟩
          rw [mirror, hctors]
          rfl

/-! ## Mirrors are valid and small -/

/-- In lists that match pairwise, every item of the second has a partner. -/
theorem exists_partner {α β : Type} {R : α → β → Prop} {l : List α} {l' : List β}
    (h : List.Forall₂ R l l') {b : β} (hb : b ∈ l') : ∃ a, (a, b) ∈ l.zip l' ∧ R a b := by
  induction h with
  | nil => cases hb
  | @cons a b' l l' hab _ ih =>
      rw [List.zip_cons_cons]
      rcases List.mem_cons.mp hb with rfl | hb
      · exact ⟨a, List.mem_cons_self, hab⟩
      · obtain ⟨a', hmem, hab'⟩ := ih hb
        exact ⟨a', List.mem_cons_of_mem _ hmem, hab'⟩

theorem Mirrors.valid (h : d.Mirrors desc) : desc.Valid := by
  induction h with
  | prim hshape => exact .prim _
  | array hshape hlength helem ih => exact .array ih (.nat ⟨_, hlength⟩)
  | record hshape hnames hoffsets htypes ih =>
      refine .struct (fun f hf => ?_) fun f hf => ?_
      · obtain ⟨s, -, -, o, -, ho⟩ := exists_partner hoffsets hf
        exact ⟨o, ho⟩
      · obtain ⟨s, hs, -⟩ := exists_partner hoffsets hf
        exact ih _ hs
  | variant hshape hpayload hnames htags htypes ih =>
      refine .variant (fun ctor hctor => ?_) fun ctor hctor => ?_
      · obtain ⟨c, -, -, hid⟩ := exists_partner htags hctor
        have hlt : c.id.toNat < twoPow 32 := UInt32.toNat_lt c.id
        have hlimit : twoPow 32 ≤ exactLimit := by decide
        exact ⟨c.id.toNat, hid ▸ is_ofNat (by omega), hlt⟩
      · obtain ⟨c, hc, -⟩ := exists_partner htags hctor
        exact ih _ hc

theorem SameShape.small (h : d.SameShape desc) : ∀ x, desc.size = .ok x → x.Small := by
  obtain ⟨y, n, hy, hn, -, hlimit⟩ := h.size
  intro x hx
  cases hy.symm.trans hx
  exact small_of_is hn hlimit

theorem Mirrors.small (h : d.Mirrors desc) : desc.Small := by
  induction h with
  | prim hshape => exact .prim hshape.small
  | array hshape hlength helem ih => exact .array hshape.small ih
  | record hshape hnames hoffsets htypes ih =>
      refine .struct hshape.small fun f hf => ?_
      obtain ⟨s, hs, -⟩ := exists_partner hoffsets hf
      exact ih _ hs
  | variant hshape hpayload hnames htags htypes ih =>
      refine .variant hshape.small fun ctor hctor => ?_
      obtain ⟨c, hc, -⟩ := exists_partner htags hctor
      exact ih _ hc

end Relayout.Dest

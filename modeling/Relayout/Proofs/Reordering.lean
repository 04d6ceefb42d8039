import Relayout.Proofs.Acceptance
import Relayout.Proofs.Amounts
import Relayout.Proofs.Bounds
import Relayout.Proofs.Paired

/-!
# Destinations in another order

Two destination types are reorderings of each other if they differ in the order
of slots and cases and in the tags of cases, at any depth. Their layouts have
nothing in common, and plans that are built for them write to different places
in a different order. But a conversion yields what is interpreted of the source,
and an interpretation knows no destination layout: it takes source fields and
constructors by name. One thing it does know is the order of cases, which
decides between constructors that bear one tag, so the tags of each source
variant have to differ.
-/

namespace Relayout

open Relayout.Num

/-! ## Reorderings -/

/-- The same type but for the order of slots and cases, the layout, and the tags of cases. -/
inductive Dest.Reordered : Dest → Dest → Prop
  | prim (p : Prim) : Reordered (ofPrim p) (ofPrim p)
  | array {surface surface' : Surface} {elem elem' : Dest} (length : Num) (count : Nat)
      (helem : Reordered elem elem') :
      Reordered (.array surface elem length count) (.array surface' elem' length count)
  | record {surface surface' : Surface} {slots slots' : List (Slot Dest)}
      (names : (slots.map Slot.name).Perm (slots'.map Slot.name))
      (types : ∀ s ∈ slots, ∀ s' ∈ slots', s.name = s'.name → Reordered s.type s'.type) :
      Reordered (.record surface slots) (.record surface' slots')
  | variant {surface surface' : Surface} {cases cases' : List (Case Dest)}
      {payloadOffset payloadOffset' decodedAt decodedAt' : Num}
      (names : (cases.map Case.name).Perm (cases'.map Case.name))
      (types : ∀ c ∈ cases, ∀ c' ∈ cases', c.name = c'.name → Reordered c.type c'.type) :
      Reordered (.variant surface cases payloadOffset decodedAt)
        (.variant surface' cases' payloadOffset' decodedAt')

/-- The same value but for the order of record members. -/
inductive Value.Reordered : Value → Value → Prop
  | same (v : Value) : Reordered v v
  | list {items items' : List Value} (h : List.Forall₂ Reordered items items') :
      Reordered (.list items) (.list items')
  | record {members middle members' : List (Text × Value)} {base base' : Option Value}
      (names : members.map Prod.fst = middle.map Prod.fst)
      (values : List.Forall₂ Reordered (members.map Prod.snd) (middle.map Prod.snd))
      (order : middle.Perm members') (hbase : Option.Rel Reordered base base') :
      Reordered (.record members base) (.record members' base')
  | tagged (ctor : Text) {v v' : Value} (h : Reordered v v') :
      Reordered (.tagged ctor v) (.tagged ctor v')

namespace Dest

/-- The slots of each record differ in their names. -/
inductive Named : Dest → Prop
  | prim {surface : Surface} {source : Text} {widensFrom : List Text} {codec : Prim} :
      Named (.prim surface source widensFrom codec)
  | array {surface : Surface} {elem : Dest} {length : Num} {count : Nat} (helem : Named elem) :
      Named (.array surface elem length count)
  | record {surface : Surface} {slots : List (Slot Dest)} (names : (slots.map Slot.name).Nodup)
      (hslots : ∀ s ∈ slots, Named s.type) : Named (.record surface slots)
  | variant {surface : Surface} {cases : List (Case Dest)} {payloadOffset decodedAt : Num}
      (hcases : ∀ c ∈ cases, Named c.type) : Named (.variant surface cases payloadOffset decodedAt)

theorem named_of_made {d : Dest} (made : d.Made) : d.Named := by
  induction made with
  | prim p => exact .prim
  | array helem hmade ih =>
      obtain ⟨name, count, -, rfl⟩ := arrayOf_eq hmade
      exact .array ih
  | @record parts names hparts ih =>
      have hslots := placeSlots_parts parts 0
      refine .record ?_ fun s hs => ih (s.name, s.type) (hslots ▸ List.mem_map_of_mem hs)
      rw [← hslots, List.map_map] at names
      exact names
  | variant names hparts hmade ih =>
      obtain ⟨name, cases, hcases, rfl⟩ := variantOf_eq hmade
      obtain ⟨new, rfl, hnew, -⟩ := makeCases_spec hcases List.Pairwise.nil
      exact .variant fun c hc => ih (c.name, c.type) (hnew ▸ List.mem_map_of_mem hc)

/-! ### Reorderings that the combinators make -/

/-- The parts of one type are those of the other in another order, up to reorderings of their own. -/
abbrev PartsReordered (parts parts' : List (Text × Dest)) : Prop :=
  Paired Prod.fst Prod.fst (fun part part' => part.2.Reordered part'.2) parts parts'

theorem reordered_recordOf {parts parts' : List (Text × Dest)}
    (h : PartsReordered parts parts') : (recordOf parts).Reordered (recordOf parts') := by
  rw [PartsReordered, ← placeSlots_parts parts 0, ← placeSlots_parts parts' 0] at h
  obtain ⟨names, types⟩ := h.of_map
  exact .record names types

theorem reordered_variantOf {parts parts' : List (Text × Dest)} {ids ids' : List (Text × Num)}
    {made made' : Dest} (h : PartsReordered parts parts') (hmade : variantOf parts ids = .ok made)
    (hmade' : variantOf parts' ids' = .ok made') : made.Reordered made' := by
  obtain ⟨name, cases, hcases, rfl⟩ := variantOf_eq hmade
  obtain ⟨name', cases', hcases', rfl⟩ := variantOf_eq hmade'
  obtain ⟨new, rfl, hparts, -⟩ := makeCases_spec hcases List.Pairwise.nil
  obtain ⟨new', rfl, hparts', -⟩ := makeCases_spec hcases' List.Pairwise.nil
  rw [PartsReordered, ← hparts, ← hparts'] at h
  obtain ⟨names, types⟩ := h.of_map
  exact .variant names types

end Dest

/-! ## Source variants whose tags differ -/

namespace Desc

mutual

/-- The constructors of each variant bear different tags. -/
def distinctIds : Desc → Bool
  | prim _ => true
  | nat _ => true
  | array elem _ => distinctIds elem
  | struct fields => fieldsDistinct fields
  | variant ctors => decide (ctors.Pairwise fun k k' => k.id.eqv k'.id = false) && ctorsDistinct ctors

/-- So it is in the type of every field. -/
def fieldsDistinct : List (Field Desc) → Bool
  | [] => true
  | f :: rest => distinctIds f.type && fieldsDistinct rest

/-- So it is in every payload. -/
def ctorsDistinct : List (Ctor Desc) → Bool
  | [] => true
  | k :: rest => distinctIds k.type && ctorsDistinct rest

end

theorem fieldsDistinct_iff {fields : List (Field Desc)} :
    fieldsDistinct fields = true ↔ ∀ f ∈ fields, f.type.distinctIds = true := by
  induction fields with
  | nil => simp [fieldsDistinct]
  | cons f rest ih => rw [fieldsDistinct, Bool.and_eq_true, ih, List.forall_mem_cons]

theorem ctorsDistinct_iff {ctors : List (Ctor Desc)} :
    ctorsDistinct ctors = true ↔ ∀ k ∈ ctors, k.type.distinctIds = true := by
  induction ctors with
  | nil => simp [ctorsDistinct]
  | cons k rest ih => rw [ctorsDistinct, Bool.and_eq_true, ih, List.forall_mem_cons]

/-- Among constructors whose tags differ, one is known by its tag. -/
theorem eq_of_id {ctors : List (Ctor Desc)}
    (h : ctors.Pairwise fun k k' => k.id.eqv k'.id = false) {k k' : Ctor Desc} (hk : k ∈ ctors)
    (hk' : k' ∈ ctors) {tag : Num} (hid : k.id.eqv tag = true) (hid' : k'.id.eqv tag = true) :
    k = k' := by
  have symmetric : Std.Symm fun k k' : Ctor Desc => k.id.eqv k'.id = false := by
    constructor
    intro a b hab
    rw [Bool.eq_false_iff] at hab ⊢
    exact fun hba => hab (Plan.eqv_symm hba)
  by_contra hne
  have hdiffer := h.forall hk hk' hne
  rw [Plan.eqv_trans hid (Plan.eqv_symm hid')] at hdiffer
  cases hdiffer

end Desc

/-! ## What is matched -/

namespace Dest

theorem Reordered.converts_iff {dest dest' : Dest} (h : dest.Reordered dest') (desc : Desc) :
    dest.Converts desc ↔ dest'.Converts desc := by
  induction h generalizing desc with
  | prim p => rfl
  | array length count _ ih =>
      cases desc with
      | array elem len =>
          cases len with
          | nat n => rw [Converts, Converts, ih elem]
          | _ => simp only [Converts]
      | _ => simp only [Converts]
  | record names _ ih =>
      cases desc with
      | struct fields =>
          rw [Converts, Converts, slotsConvert_iff, slotsConvert_iff]
          refine Paired.forall_iff (Paired.imp ⟨names, ih⟩ ?_)
          intro s s' hname hiff
          rw [hname]
          exact exists_congr fun f => and_congr_right fun _ => hiff f.type
      | _ => simp only [Converts]
  | variant names _ ih =>
      cases desc with
      | variant ctors =>
          rw [Converts, Converts, casesConvert_iff, casesConvert_iff]
          refine Paired.forall_iff (Paired.imp ⟨names, ih⟩ ?_)
          intro c c' hname hiff
          rw [hname]
          exact forall₂_congr fun ctor _ => and_congr_right fun _ => hiff ctor.type
      | _ => simp only [Converts]

/-! ## What is measured -/

/-- The end of the field that a slot takes, if there is one. -/
def slotEnd (fields : List (Field Desc)) (s : Slot Dest) : Except Cause (Option Num) :=
  match fields.find? (·.name = s.name) with
  | some f => do return some (f.offset + (← s.type.sourceExtent f.type))
  | none => pure none

/-- The alignment and the extent of the payload that a case takes, if there is one. -/
def caseSpace (ctors : List (Ctor Desc)) (c : Case Dest) : Except Cause (Option (Num × Num)) :=
  match ctors.find? (·.name = c.name) with
  | some k => do
    let align ← k.type.align
    return some (align, ← c.type.sourceExtent k.type)
  | none => pure none

/-- Room for two payloads one over the other. -/
def overlay (space space' : Num × Num) : Num × Num :=
  (space.1.max space'.1, space.2.max space'.2)

instance : RightCommutative Num.max :=
  ⟨max_right_comm⟩

instance : RightCommutative overlay :=
  ⟨fun _ _ _ => Prod.ext (max_right_comm _ _ _) (max_right_comm _ _ _)⟩

/-- The last of all ends. -/
theorem slotsExtent_eq (fields : List (Field Desc)) (slots : List (Slot Dest)) (finish : Num) :
    slotsExtent fields slots finish = do
      return (← slots.mapM (slotEnd fields)).reduceOption.foldl Num.max finish := by
  induction slots generalizing finish with
  | nil => rfl
  | cons s rest ih =>
      rw [slotsExtent, List.mapM_cons]
      rcases hfield : fields.find? (·.name = s.name) with _ | f
      · simp [slotEnd, hfield, ih]
      · simp [slotEnd, hfield, ih]

theorem casesExtent_eq (ctors : List (Ctor Desc)) (cases : List (Case Dest))
    (maxAlign payload : Num) : casesExtent ctors cases maxAlign payload = do
      return (← cases.mapM (caseSpace ctors)).reduceOption.foldl overlay (maxAlign, payload) := by
  induction cases generalizing maxAlign payload with
  | nil => rfl
  | cons c rest ih =>
      rw [casesExtent, List.mapM_cons]
      rcases hctor : ctors.find? (·.name = c.name) with _ | k
      · simp [caseSpace, hctor, ih]
      · simp [caseSpace, hctor, ih, overlay]

/-- The extents of two types agree for every descriptor: they are equal, or neither is defined. -/
def SameExtent (dest dest' : Dest) : Prop :=
  ∀ desc, Agree (· = ·) (dest.sourceExtent desc) (dest'.sourceExtent desc)

theorem slotEnd_agree (fields : List (Field Desc)) {s s' : Slot Dest} (hname : s.name = s'.name)
    (h : s.type.SameExtent s'.type) : Agree (· = ·) (slotEnd fields s) (slotEnd fields s') := by
  rw [slotEnd, slotEnd, hname]
  split
  · exact (h _).bind fun _ _ hx => .ok (hx ▸ rfl)
  · exact .ok rfl

theorem caseSpace_agree (ctors : List (Ctor Desc)) {c c' : Case Dest} (hname : c.name = c'.name)
    (h : c.type.SameExtent c'.type) : Agree (· = ·) (caseSpace ctors c) (caseSpace ctors c') := by
  rw [caseSpace, caseSpace, hname]
  split
  · rename_i k _
    exact (Agree.refl (fun _ => Eq.refl _) k.type.align).bind fun _ _ halign =>
      (h _).bind fun _ _ hx => .ok (halign ▸ hx ▸ rfl)
  · exact .ok rfl

/-- **A reordering reads as many bytes of a source value.** -/
theorem Reordered.sameExtent {dest dest' : Dest} (h : dest.Reordered dest') :
    dest.SameExtent dest' := by
  induction h with
  | prim p => exact fun _ => .refl (fun _ => rfl) _
  | array length count _ _ =>
      -- the items are sized by the source, whatever they are converted to
      intro desc
      unfold sourceExtent
      exact .refl (fun _ => rfl) _
  | record names _ ih =>
      intro desc
      cases desc with
      | struct fields =>
          have hparts := Paired.imp ⟨names, ih⟩ fun _ _ => slotEnd_agree fields
          rw [sourceExtent, sourceExtent, slotsExtent_eq, slotsExtent_eq]
          refine hparts.mapM.bind fun _ _ hends => .ok ?_
          exact (hends.perm.filterMap id).foldl_eq 0
      | _ => exact .ok rfl
  | @variant _ _ cases cases' _ _ _ _ names _ ih =>
      intro desc
      cases desc with
      | variant ctors =>
          have hparts := Paired.imp ⟨names, ih⟩ fun _ _ => caseSpace_agree ctors
          have hspace : Agree (· = ·) (casesExtent ctors cases 1 0)
              (casesExtent ctors cases' 1 0) := by
            rw [casesExtent_eq, casesExtent_eq]
            refine hparts.mapM.bind fun _ _ hspaces => .ok ?_
            exact (hspaces.perm.filterMap id).foldl_eq (1, 0)
          rw [sourceExtent, sourceExtent]
          exact hspace.bind fun _ _ hx => .ok (hx ▸ rfl)
      | _ => exact .ok rfl

end Dest

/-! ## What is taken -/

namespace Plan

section

variable {cases cases' : List (Case Dest)} {r : Case Dest → Case Dest → Prop}
  (h : Paired Case.name Case.name r cases cases') (ctors : List (Ctor Desc))

include h

theorem payloadStart_paired : payloadStart ctors cases = payloadStart ctors cases' := by
  have halign : Paired Case.name Case.name (fun c c' =>
      (ctors.find? (·.name = c.name)).map (·.type.alignment) =
        (ctors.find? (·.name = c'.name)).map (·.type.alignment)) cases cases' :=
    h.imp fun _ _ hname _ => by rw [hname]
  rw [payloadStart, payloadStart, matchedAlign_eq, matchedAlign_eq]
  congr 1
  exact halign.filterMap.foldl_eq' (fun _ _ _ _ _ => Nat.max_right_comm _ _ _) 1

/-- If no two constructors bear one tag, the cases that are taken for it bear one name. -/
theorem taken_paired (hids : ctors.Pairwise fun k k' => k.id.eqv k'.id = false) (tag : Num) :
    (taken ctors tag cases = none ∧ taken ctors tag cases' = none) ∨
      ∃ c c' k, taken ctors tag cases = some (c, k) ∧ taken ctors tag cases' = some (c', k) ∧
        c.name = c'.name ∧ r c c' := by
  have hnone : taken ctors tag cases = none ↔ taken ctors tag cases' = none := by
    rw [taken_eq_none, taken_eq_none]
    exact (h.imp fun _ _ hname _ => by rw [hname]).forall_iff
  rcases htaken : taken ctors tag cases with _ | ⟨c, k⟩
  · exact .inl ⟨rfl, hnone.mp htaken⟩
  · rcases htaken' : taken ctors tag cases' with _ | ⟨c', k'⟩
    · rw [hnone.mpr htaken'] at htaken
      cases htaken
    · obtain ⟨hc, hfind, hid⟩ := taken_spec htaken
      obtain ⟨hc', hfind', hid'⟩ := taken_spec htaken'
      have hk : k = k' := Desc.eq_of_id hids (List.mem_of_find?_eq_some hfind)
        (List.mem_of_find?_eq_some hfind') hid hid'
      have hname : c.name = c'.name := by
        have hkname := List.find?_some hfind
        have hkname' := List.find?_some hfind'
        rw [decide_eq_true_eq] at hkname hkname'
        rw [← hkname, ← hkname', hk]
      exact .inr ⟨c, c', k, rfl, hk ▸ rfl, hname, h.related c hc c' hc' hname⟩

end

end Plan

/-! ## What is interpreted -/

namespace Dest

/-- A slot with its value, from the first source field of its name. -/
def interpretSlot (order : ByteOrder) (src : Memory) (fields : List (Field Desc)) (n : Nat)
    (s : Slot Dest) : Except Fault (Text × Value) :=
  match fields.find? (·.name = s.name) with
  | some f => do return (s.name, ← s.type.interpret order src f.type (n + f.start))
  | none => .error (.defect .wrongKind)

theorem interpretSlots_mapM (order : ByteOrder) (src : Memory) (fields : List (Field Desc))
    (slots : List (Slot Dest)) (n : Nat) :
    interpretSlots order src fields slots n = slots.mapM (interpretSlot order src fields n) := by
  induction slots with
  | nil => rfl
  | cons s rest ih =>
      rw [interpretSlots, List.mapM_cons]
      rcases hfield : fields.find? (·.name = s.name) with _ | f
      · simp [interpretSlot, hfield]
        rfl
      · simp [interpretSlot, hfield, ih]

/-- Two types interpret each source value alike, up to the order of record fields. -/
def InterpretAlike (order : ByteOrder) (src : Memory) (dest dest' : Dest) : Prop :=
  ∀ (desc : Desc) (n : Nat), desc.distinctIds = true →
    Agree Value.Reordered (dest.interpret order src desc n) (dest'.interpret order src desc n)

variable {order : ByteOrder} {src : Memory}

/-- A field and a reordering of it. -/
def FieldReordered (field field' : Text × Value) : Prop :=
  field.1 = field'.1 ∧ field.2.Reordered field'.2

theorem interpretSlot_agree {fields : List (Field Desc)}
    (hfields : ∀ f ∈ fields, f.type.distinctIds = true) (n : Nat) {s s' : Slot Dest}
    (hname : s.name = s'.name) (h : InterpretAlike order src s.type s'.type) :
    Agree FieldReordered
      (interpretSlot order src fields n s) (interpretSlot order src fields n s') := by
  rw [interpretSlot, interpretSlot, hname]
  split
  · rename_i f hfield
    exact (h _ _ (hfields f (List.mem_of_find?_eq_some hfield))).bind fun _ _ hv => .ok ⟨rfl, hv⟩
  · exact .error _ _

theorem hasMembers_reordered {v v' : Value} (h : v.Reordered v') : v.hasMembers = v'.hasMembers := by
  cases h <;> rfl

/-- Fields with the same names are left alike by a choice among names. -/
theorem forall₂_filter_name {vs vs' : List (Text × Value)} (h : List.Forall₂ FieldReordered vs vs')
    (keep : Text → Bool) : List.Forall₂ FieldReordered (vs.filter fun p => keep p.1)
      (vs'.filter fun p => keep p.1) := by
  induction h with
  | nil => exact .nil
  | @cons p p' _ _ hfirst _ ih =>
      rw [List.filter_cons, List.filter_cons, ← hfirst.1]
      split
      · exact .cons hfirst ih
      · exact ih

/-- Among names that differ, one name is there once or not at all. -/
theorem filter_name_le_one {vs : List (Text × Value)} (h : (vs.map Prod.fst).Nodup) (name : Text) :
    vs.filter (·.1 = name) = [] ∨ ∃ p, vs.filter (·.1 = name) = [p] := by
  induction vs with
  | nil => exact .inl rfl
  | cons p rest ih =>
      obtain ⟨hfirst, hrest⟩ := List.nodup_cons.mp h
      rw [List.filter_cons]
      split
      · rename_i hname
        refine .inr ⟨p, ?_⟩
        rw [List.filter_eq_nil_iff.mpr]
        intro q hq hsame
        refine hfirst (List.mem_map.mpr ⟨q, hq, ?_⟩)
        rw [of_decide_eq_true hsame, of_decide_eq_true hname]
      · exact ih hrest

/-- The base of a record does not depend on the order of the fields if their names differ. -/
theorem reordered_base {vs vs' : List (Text × Value)} (names : (vs.map Prod.fst).Nodup)
    (h : RelatedPerm FieldReordered vs vs') (name : Text) :
    Option.Rel Value.Reordered
      ((((vs.filter (·.1 = name)).map (·.2)).filter Value.hasMembers).getLast?)
      ((((vs'.filter (·.1 = name)).map (·.2)).filter Value.hasMembers).getLast?) := by
  obtain ⟨middle, hmiddle, hperm⟩ := h
  have hfilter := forall₂_filter_name hmiddle (· = name)
  have hkept := hperm.filter (·.1 = name)
  rcases filter_name_le_one names name with hnone | ⟨p, hone⟩
  · rw [hnone, List.forall₂_nil_left_iff] at hfilter
    rw [hfilter, List.nil_perm] at hkept
    rw [hnone, hkept]
    exact .none
  · rw [hone] at hfilter
    obtain ⟨q, hq, hrelated⟩ : ∃ q, middle.filter (·.1 = name) = [q] ∧ FieldReordered p q := by
      generalize middle.filter (·.1 = name) = kept at hfilter
      cases hfilter with
      | cons hpq hrest =>
          cases hrest
          exact ⟨_, rfl, hpq⟩
    rw [hq, List.singleton_perm] at hkept
    rw [hone, ← hkept, List.map_singleton, List.map_singleton, List.filter_singleton,
      List.filter_singleton, hasMembers_reordered hrelated.2]
    cases q.2.hasMembers with
    | false => exact .none
    | true => exact .some hrelated.2

/-- Slots that are interpreted alike make up records that are reorderings of each other. -/
theorem reordered_fields {vs vs' : List (Text × Value)} (names : (vs.map Prod.fst).Nodup)
    (h : RelatedPerm FieldReordered vs vs') :
    Value.Reordered (.ofFields vs) (.ofFields vs') := by
  have hbase := reordered_base names h Inherited.baseName
  obtain ⟨middle, hmiddle, hperm⟩ := h
  have hmembers := forall₂_filter_name hmiddle (· ≠ Inherited.baseName)
  refine .record ?_ ?_ (hperm.filter _) hbase
  · rw [← List.forall₂_eq_eq_eq, List.forall₂_map_left_iff, List.forall₂_map_right_iff]
    exact hmembers.imp fun _ _ hp => hp.1
  · rw [List.forall₂_map_left_iff, List.forall₂_map_right_iff]
    exact hmembers.imp fun _ _ hp => hp.2

/-- The values of slots bear the names of the slots. -/
theorem interpretSlots_names {fields : List (Field Desc)} {n : Nat} {slots : List (Slot Dest)}
    {vs : List (Text × Value)} (h : slots.mapM (interpretSlot order src fields n) = .ok vs) :
    vs.map Prod.fst = slots.map Slot.name := by
  induction slots generalizing vs with
  | nil =>
      cases h
      rfl
  | cons s rest ih =>
      rw [List.mapM_cons] at h
      obtain ⟨v, hv, h⟩ := bind_eq_ok.mp h
      obtain ⟨rest', hrest, h⟩ := bind_eq_ok.mp h
      cases h
      rw [interpretSlot] at hv
      split at hv
      · obtain ⟨value, -, hv⟩ := bind_eq_ok.mp hv
        cases hv
        rw [List.map_cons, List.map_cons, ih hrest]
      · cases hv

/-- **A reordering interprets a source value alike**, if the tags of each source variant differ. -/
theorem Reordered.interpretAlike {dest dest' : Dest} (h : dest.Reordered dest') (named : dest.Named) :
    InterpretAlike order src dest dest' := by
  induction h with
  | prim p => exact fun _ _ _ => .refl .same _
  | array length count _ ih =>
      obtain _ | helem := named
      intro desc n hids
      cases desc with
      | array elem len =>
          rw [interpret, interpret]
          have hitems := Agree.mapM (List.forall₂_same.mpr fun i (_ : i ∈ List.range' 0 count) =>
            ih helem elem (n + i * elem.bytes) hids)
          exact hitems.bind fun _ _ hvs => .ok (.list hvs)
      | _ => exact .error _ _
  | record names _ ih =>
      obtain _ | _ | ⟨hnames, hslots⟩ := named
      intro desc n hids
      cases desc with
      | struct fields =>
          have hfields := Desc.fieldsDistinct_iff.mp hids
          have hparts := Paired.imp
            ⟨names, fun s hs s' hs' hname => ih s hs s' hs' hname (hslots s hs)⟩
            fun _ _ => interpretSlot_agree hfields n
          rw [interpret, interpret, interpretSlots_mapM, interpretSlots_mapM]
          refine hparts.mapM.bind_ok fun vs _ hvalues hvs => .ok (reordered_fields ?_ hvs)
          rw [interpretSlots_names hvalues]
          exact hnames
      | _ => exact .error _ _
  | @variant _ _ cases cases' _ _ _ _ names _ ih =>
      obtain _ | _ | _ | hcases := named
      intro desc n hids
      cases desc with
      | variant ctors =>
          rw [Desc.distinctIds, Bool.and_eq_true, decide_eq_true_eq] at hids
          obtain ⟨hdistinct, hctors⟩ := hids
          -- both take the same constructor, so that only its payload is left
          have hparts := Paired.mk names fun c hc c' hc' hname => ih c hc c' hc' hname (hcases c hc)
          rw [interpret, interpret]
          simp only [interpretCase_eq, Plan.payloadStart_paired hparts ctors]
          rcases Plan.taken_paired hparts ctors hdistinct (.ofNat (src.wordAt order n 4)) with
            ⟨hnone, hnone'⟩ | ⟨c, c', k, hsome, hsome', hname, halike⟩
          · rw [hnone, hnone']
            exact .error _ _
          · have hk : k ∈ ctors := List.mem_of_find?_eq_some (Plan.taken_spec hsome).2.1
            have hpayload := halike k.type (n + Plan.payloadStart ctors cases')
              (Desc.ctorsDistinct_iff.mp hctors k hk)
            rw [hsome, hsome']
            exact hpayload.bind fun _ _ hv => .ok (hname ▸ .tagged c.name hv)
      | _ => exact .error _ _

end Dest

/-! ## Conversions -/

namespace Converter

theorem build_reordered {dest dest' : Dest} (laid : dest.Laid) (laid' : dest'.Laid)
    (h : dest.Reordered dest') (desc : Desc) (options : Layer) :
    (∃ c, (build dest desc options).result = .ok c) ↔
      ∃ c', (build dest' desc options).result = .ok c' := by
  rcases hoptions : options.resolve with cause | config
  · -- invalid options are refused before the pair is looked at
    have hfails : ∀ d : Dest, ¬∃ c, (build d desc options).result = .ok c := by
      rintro d ⟨c, hc⟩
      rw [config_of_build hc] at hoptions
      cases hoptions
    exact iff_of_false (hfails dest) (hfails dest')
  · show (build dest desc options).Succeeds ↔ (build dest' desc options).Succeeds
    rw [build_succeeds_iff laid hoptions, build_succeeds_iff laid' hoptions]
    exact h.converts_iff desc

/-- The interpretation that a conversion from an accepted range yields. -/
theorem convert_inRange {c : Converter} {desc : Desc} (laid : c.dest.Laid) (valid : desc.Valid)
    (hsmall : desc.Small) (built : c.BuiltFor c.dest desc) {src : Memory} (hsrc : src.Addressable)
    {s : Num} (hrange : InRange src.size s c.sourceSize) :
    ∃ n, s.Is n ∧ c.convert src s = c.dest.interpret c.config.byteOrder src desc n := by
  obtain ⟨n, hn, -, hfit, hcheck⟩ := source_inRange laid valid hsmall built hsrc hrange
  exact ⟨n, hn, (convert_of_valid laid valid hsmall built hsrc hn hfit hcheck).1⟩

/-- **The order in which a destination type is declared makes no difference.** A reordering is
built from the same descriptors and reads as many bytes. From every range within the source both
convert to the same value, up to the order of record fields, or both fail. -/
theorem convert_reordered {dest dest' : Dest} (made : dest.Made) (made' : dest'.Made)
    (small : dest.Small) (small' : dest'.Small) (h : dest.Reordered dest') {document : Text}
    {desc : Desc} (hdesc : Desc.decode document = .ok desc) (hsmall : desc.Small)
    (hids : desc.distinctIds = true) (options : Layer) :
    ((∃ c, (build dest desc options).result = .ok c) ↔
        ∃ c', (build dest' desc options).result = .ok c') ∧
      ∀ c c', (build dest desc options).result = .ok c →
        (build dest' desc options).result = .ok c' →
        c.sourceSize = c'.sourceSize ∧
          ∀ src : Memory, src.Addressable → ∀ s, InRange src.size s c.sourceSize →
            Agree Value.Reordered (c.convert src s) (c'.convert src s) := by
  have laid := Dest.laid_of_made made small
  have laid' := Dest.laid_of_made made' small'
  have valid := Desc.valid_of_decode hdesc
  refine ⟨build_reordered laid laid' h desc options, ?_⟩
  intro c c' hbuild hbuild'
  have built := builtFor_of_build hbuild
  have built' := builtFor_of_build hbuild'
  have hsize : c.sourceSize = c'.sourceSize := by
    have hextent := h.sameExtent desc
    rw [built.extent, built'.extent] at hextent
    cases hextent
    assumption
  refine ⟨hsize, ?_⟩
  intro src hsrc s hrange
  cases built.same
  cases built'.same
  obtain ⟨n, hn, hconvert⟩ := convert_inRange laid valid hsmall built hsrc hrange
  obtain ⟨n', hn', hconvert'⟩ := convert_inRange laid' valid hsmall built' hsrc (hsize ▸ hrange)
  obtain rfl := hn.unique hn'
  have hconfig : c.config = c'.config :=
    Except.ok.inj ((config_of_build hbuild).symm.trans (config_of_build hbuild'))
  -- what is left says nothing of either layout
  rw [hconvert, hconvert', hconfig]
  exact h.interpretAlike (Dest.named_of_made made) desc n hids

/-- A reading with its cases in the other order and with tags of its own. -/
def swappedReading : Except Dest.Invalid Dest :=
  Dest.variantOf [("level", .ofPrim .int32), ("idle", .ofPrim .unit)] [("idle", 2)]

/-- The type of the sample with the reading first. -/
def swapped : Dest :=
  .recordOf [("reading", swappedReading.toOption.get (by decide +kernel)), ("flag", .ofPrim .byte)]

/-- The sample is converted to the same flag and the same level. -/
theorem convert_reordered_sample :
    ∃ c', (build swapped Sample.desc Sample.options).result = .ok c' ∧
      Sample.converter.sourceSize = c'.sourceSize ∧
      Agree Value.Reordered (Sample.converter.convert Sample.bytes 0)
        (c'.convert Sample.bytes 0) := by
  have hreading : ∀ d, swappedReading = .ok d → d.Made := by
    intro d hd
    refine .variant (by decide +kernel) ?_ hd
    simpa using ⟨Dest.Made.prim _, Dest.Made.prim _⟩
  have hmade : swapped.Made := by
    refine .record (by decide +kernel) ?_
    simpa using ⟨hreading _ (eq_ok_get _), Dest.Made.prim _⟩
  have hswapped : ∀ d d', Sample.reading = .ok d → swappedReading = .ok d' → d.Reordered d' := by
    intro d d' hd hd'
    refine Dest.reordered_variantOf ⟨by decide, ?_⟩ hd hd'
    have hidle : Text.ofString "idle" ≠ Text.ofString "level" := by decide
    simpa [hidle, hidle.symm] using ⟨Dest.Reordered.prim .unit, Dest.Reordered.prim .int32⟩
  have hreordered : Sample.dest.Reordered swapped := by
    refine Dest.reordered_recordOf ⟨by decide, ?_⟩
    have hflag : Text.ofString "flag" ≠ Text.ofString "reading" := by decide
    simpa [hflag, hflag.symm] using
      ⟨Dest.Reordered.prim .byte, hswapped _ _ (eq_ok_get _) (eq_ok_get _)⟩
  have hrange : InRange Sample.bytes.size 0 Sample.converter.sourceSize :=
    ⟨0, 10, is_ofNat (Nat.zero_le _), Sample.extent, by decide⟩
  obtain ⟨hiff, hsame⟩ := convert_reordered Sample.made hmade Sample.small (by decide +kernel)
    hreordered Sample.decoded Sample.desc_small (by decide +kernel) Sample.options
  obtain ⟨c', hbuilt⟩ := hiff.mp ⟨_, Sample.built⟩
  obtain ⟨hextent, hconvert⟩ := hsame _ c' Sample.built hbuilt
  exact ⟨c', hbuilt, hextent, hconvert Sample.bytes Sample.addressable 0 hrange⟩

end Converter

end Relayout

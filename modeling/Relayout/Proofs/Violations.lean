import Relayout.Proofs.Documents
import Relayout.Proofs.Ranges

/-!
# Violations of the grammar

All that keeps a value from being a descriptor can be listed, in the order in
which the members are named by the grammar and each part before what follows it.
Reading comes to a descriptor if nothing is listed, and stops at the first entry
otherwise (`stops_ofJson`). What is accepted is what the grammar generates
(`conforms_iff`).
-/

namespace Relayout.Desc

open Relayout.Num

/-! ## The grammar -/

def IsNatural (v : Option Json) : Prop :=
  ∃ x n, v = some (.num x) ∧ x.Is n

def IsTag (v : Option Json) : Prop :=
  ∃ x n, v = some (.num x) ∧ x.Is n ∧ n ≤ 0xFFFFFFFF

def IsText (v : Option Json) : Prop :=
  ∃ t, v = some (.str t)

/-- The JSON values that the grammar of descriptors generates. -/
inductive Conforms : Json → Prop
  | prim {v : Json} (htag : v.get? "tag" = some (.str "prim")) (hname : IsText (v.get? "name")) :
      Conforms v
  | nat {v : Json} (htag : v.get? "tag" = some (.str "nat")) (hvalue : IsNatural (v.get? "value")) :
      Conforms v
  | array {v elem len : Json} (htag : v.get? "tag" = some (.str "farr"))
      (helem : v.get? "elem" = some elem) (conforms : Conforms elem)
      (hlen : v.get? "len" = some len) (conforms' : Conforms len) : Conforms v
  | struct {v : Json} {items : List Json} (htag : v.get? "tag" = some (.str "struct"))
      (hfields : v.get? "fields" = some (.arr items))
      (hnames : ∀ item ∈ items, IsText (item.get? "name"))
      (hoffsets : ∀ item ∈ items, IsNatural (item.get? "offset"))
      (htypes : ∀ item ∈ items, ∃ type, item.get? "type" = some type)
      (conforms : ∀ item ∈ items, ∀ type, item.get? "type" = some type → Conforms type) : Conforms v
  | variant {v : Json} {items : List Json} (htag : v.get? "tag" = some (.str "variant"))
      (hctors : v.get? "ctors" = some (.arr items))
      (hids : ∀ item ∈ items, IsTag (item.get? "id"))
      (hnames : ∀ item ∈ items, IsText (item.get? "name"))
      (htypes : ∀ item ∈ items, ∃ type, item.get? "type" = some type)
      (conforms : ∀ item ∈ items, ∀ type, item.get? "type" = some type → Conforms type) : Conforms v

mutual

/-- What states a descriptor is generated by the grammar. -/
theorem conforms_of_describes : ∀ {d : Desc} {v : Json}, d.Describes v → Conforms v
  | prim name, v, h => by
      rw [Describes] at h
      exact .prim h.1 ⟨name, h.2⟩
  | nat value, v, h => by
      rw [Describes] at h
      obtain ⟨htag, hvalue, n, hn⟩ := h
      exact .nat htag ⟨value, n, hvalue, hn⟩
  | array elem len, v, h => by
      rw [Describes] at h
      obtain ⟨htag, ⟨w, hw, helem⟩, w', hw', hlen⟩ := h
      exact .array htag hw (conforms_of_describes helem) hw' (conforms_of_describes hlen)
  | struct fields, v, h => by
      rw [Describes] at h
      obtain ⟨htag, items, hitems, hfields⟩ := h
      have hall := conforms_of_describesFields hfields
      exact .struct htag hitems (fun item hitem => (hall item hitem).1)
        (fun item hitem => (hall item hitem).2.1) (fun item hitem => (hall item hitem).2.2.1)
        fun item hitem => (hall item hitem).2.2.2
  | variant ctors, v, h => by
      rw [Describes] at h
      obtain ⟨htag, items, hitems, hctors⟩ := h
      have hall := conforms_of_describesCtors hctors
      exact .variant htag hitems (fun item hitem => (hall item hitem).1)
        (fun item hitem => (hall item hitem).2.1) (fun item hitem => (hall item hitem).2.2.1)
        fun item hitem => (hall item hitem).2.2.2

theorem conforms_of_describesFields : ∀ {fields : List (Field Desc)} {items : List Json},
    DescribesFields fields items → ∀ item ∈ items,
      IsText (item.get? "name") ∧ IsNatural (item.get? "offset") ∧
        (∃ type, item.get? "type" = some type) ∧
        ∀ type, item.get? "type" = some type → Conforms type
  | [], _, h => by
      rw [DescribesFields] at h
      simp [h]
  | f :: rest, items, h => by
      rw [DescribesFields] at h
      obtain ⟨v, others, rfl, hname, ⟨hoffset, n, hn⟩, ⟨w, hw, htype⟩, hrest⟩ := h
      refine List.forall_mem_cons.mpr ⟨⟨⟨_, hname⟩, ⟨_, n, hoffset, hn⟩, ⟨w, hw⟩, ?_⟩,
        conforms_of_describesFields hrest⟩
      intro type h
      rw [hw] at h
      exact Option.some.inj h ▸ conforms_of_describes htype

theorem conforms_of_describesCtors : ∀ {ctors : List (Ctor Desc)} {items : List Json},
    DescribesCtors ctors items → ∀ item ∈ items,
      IsTag (item.get? "id") ∧ IsText (item.get? "name") ∧
        (∃ type, item.get? "type" = some type) ∧
        ∀ type, item.get? "type" = some type → Conforms type
  | [], _, h => by
      rw [DescribesCtors] at h
      simp [h]
  | c :: rest, items, h => by
      rw [DescribesCtors] at h
      obtain ⟨v, others, rfl, ⟨hid, n, hn, hlt⟩, hname, ⟨w, hw, htype⟩, hrest⟩ := h
      have hle : n ≤ 0xFFFFFFFF := Nat.le_of_lt_succ hlt
      refine List.forall_mem_cons.mpr ⟨⟨⟨_, n, hid, hn, hle⟩, ⟨_, hname⟩, ⟨w, hw⟩, ?_⟩,
        conforms_of_describesCtors hrest⟩
      intro type h
      rw [hw] at h
      exact Option.some.inj h ▸ conforms_of_describes htype

end

/-- Items that are generated one by one state a list of fields. -/
theorem exists_describesFields {items : List Json}
    (hnames : ∀ item ∈ items, IsText (item.get? "name"))
    (hoffsets : ∀ item ∈ items, IsNatural (item.get? "offset"))
    (htypes : ∀ item ∈ items, ∃ type, item.get? "type" = some type)
    (h : ∀ item ∈ items, ∀ type, item.get? "type" = some type → ∃ d, Describes d type) :
    ∃ fields, DescribesFields fields items := by
  induction items with
  | nil => exact ⟨[], by rw [DescribesFields]⟩
  | cons v rest ih =>
      simp only [List.forall_mem_cons] at hnames hoffsets htypes h
      obtain ⟨fields, hfields⟩ := ih hnames.2 hoffsets.2 htypes.2 h.2
      obtain ⟨name, hname⟩ := hnames.1
      obtain ⟨x, n, hoffset, hn⟩ := hoffsets.1
      obtain ⟨type, htype⟩ := htypes.1
      obtain ⟨d, hd⟩ := h.1 type htype
      exact ⟨⟨name, x, d⟩ :: fields,
        describesFields_cons.mpr ⟨hname, ⟨hoffset, n, hn⟩, ⟨type, htype, hd⟩, hfields⟩⟩

theorem exists_describesCtors {items : List Json}
    (hids : ∀ item ∈ items, IsTag (item.get? "id"))
    (hnames : ∀ item ∈ items, IsText (item.get? "name"))
    (htypes : ∀ item ∈ items, ∃ type, item.get? "type" = some type)
    (h : ∀ item ∈ items, ∀ type, item.get? "type" = some type → ∃ d, Describes d type) :
    ∃ ctors, DescribesCtors ctors items := by
  induction items with
  | nil => exact ⟨[], by rw [DescribesCtors]⟩
  | cons v rest ih =>
      simp only [List.forall_mem_cons] at hids hnames htypes h
      obtain ⟨ctors, hctors⟩ := ih hids.2 hnames.2 htypes.2 h.2
      obtain ⟨x, n, hid, hn, hle⟩ := hids.1
      obtain ⟨name, hname⟩ := hnames.1
      obtain ⟨type, htype⟩ := htypes.1
      obtain ⟨d, hd⟩ := h.1 type htype
      exact ⟨⟨name, x, d⟩ :: ctors, describesCtors_cons.mpr
        ⟨⟨hid, n, hn, Nat.lt_succ_of_le hle⟩, hname, ⟨type, htype, hd⟩, hctors⟩⟩

/-- **The grammar generates just the values that state a descriptor.** -/
theorem conforms_iff {v : Json} : Conforms v ↔ ∃ d, Describes d v := by
  constructor
  · intro h
    induction h with
    | prim htag hname =>
        obtain ⟨name, hname⟩ := hname
        exact ⟨.prim name, by rw [Describes]; exact ⟨htag, hname⟩⟩
    | nat htag hvalue =>
        obtain ⟨x, n, hvalue, hn⟩ := hvalue
        exact ⟨.nat x, by rw [Describes]; exact ⟨htag, hvalue, n, hn⟩⟩
    | array htag helem _ hlen _ ih ih' =>
        obtain ⟨elem, hd⟩ := ih
        obtain ⟨len, hd'⟩ := ih'
        exact ⟨.array elem len, by rw [Describes]; exact ⟨htag, ⟨_, helem, hd⟩, _, hlen, hd'⟩⟩
    | struct htag hfields hnames hoffsets htypes _ ih =>
        obtain ⟨fields, hd⟩ := exists_describesFields hnames hoffsets htypes ih
        exact ⟨.struct fields, by rw [Describes]; exact ⟨htag, _, hfields, hd⟩⟩
    | variant htag hctors hids hnames htypes _ ih =>
        obtain ⟨ctors, hd⟩ := exists_describesCtors hids hnames htypes ih
        exact ⟨.variant ctors, by rw [Describes]; exact ⟨htag, _, hctors, hd⟩⟩
  · rintro ⟨d, h⟩
    exact conforms_of_describes h

/-! ## What the grammar drops -/

/-- The second value is the first one with members dropped, at any level. Lists keep their items
in order. -/
inductive Trims : Json → Json → Prop
  | refl (v : Json) : Trims v v
  | list {vs ws : List Json} (h : List.Forall₂ Trims vs ws) : Trims (.arr vs) (.arr ws)
  | object {ms ns : Json.Members}
      (h : ∀ m ∈ ns, Option.Rel Trims (Json.lookup? m.1 ms) (some m.2)) :
      Trims (.obj ms) (.obj ns)

/-- A member that is found is kept. -/
theorem trims_member {v w w' : Json} {name : Text} (h : v.get? name = some w) (htrims : Trims w w') :
    Option.Rel Trims (v.get? name) (some w') := by
  rw [h]
  exact .some htrims

mutual

/-- **A descriptor states what its value does, and no more.** -/
theorem trims_of_describes : ∀ {d : Desc} {v : Json}, d.Describes v → Trims v d.toJson
  | prim name, v, h => by
      rw [Describes] at h
      obtain ⟨ms, rfl⟩ := obj_of_get? h.1
      refine .object ?_
      simp only [List.forall_mem_cons, List.not_mem_nil, false_implies, implies_true, and_true]
      exact ⟨trims_member h.2 (.refl _), trims_member h.1 (.refl _)⟩
  | nat value, v, h => by
      rw [Describes] at h
      obtain ⟨htag, hvalue, -⟩ := h
      obtain ⟨ms, rfl⟩ := obj_of_get? htag
      refine .object ?_
      simp only [List.forall_mem_cons, List.not_mem_nil, false_implies, implies_true, and_true]
      exact ⟨trims_member htag (.refl _), trims_member hvalue (.refl _)⟩
  | array elem len, v, h => by
      rw [Describes] at h
      obtain ⟨htag, ⟨w, hw, helem⟩, w', hw', hlen⟩ := h
      obtain ⟨ms, rfl⟩ := obj_of_get? htag
      refine .object ?_
      simp only [List.forall_mem_cons, List.not_mem_nil, false_implies, implies_true, and_true]
      exact ⟨trims_member hw (trims_of_describes helem), trims_member hw' (trims_of_describes hlen),
        trims_member htag (.refl _)⟩
  | struct fields, v, h => by
      rw [Describes] at h
      obtain ⟨htag, items, hitems, hfields⟩ := h
      obtain ⟨ms, rfl⟩ := obj_of_get? htag
      refine .object ?_
      simp only [List.forall_mem_cons, List.not_mem_nil, false_implies, implies_true, and_true]
      exact ⟨trims_member hitems (.list (trims_of_describesFields hfields)),
        trims_member htag (.refl _)⟩
  | variant ctors, v, h => by
      rw [Describes] at h
      obtain ⟨htag, items, hitems, hctors⟩ := h
      obtain ⟨ms, rfl⟩ := obj_of_get? htag
      refine .object ?_
      simp only [List.forall_mem_cons, List.not_mem_nil, false_implies, implies_true, and_true]
      exact ⟨trims_member hitems (.list (trims_of_describesCtors hctors)),
        trims_member htag (.refl _)⟩

theorem trims_of_describesFields : ∀ {fields : List (Field Desc)} {items : List Json},
    DescribesFields fields items → List.Forall₂ Trims items (fieldsToJson fields)
  | [], _, h => by
      rw [DescribesFields] at h
      rw [h]
      exact .nil
  | f :: rest, items, h => by
      rw [DescribesFields] at h
      obtain ⟨v, others, rfl, hname, ⟨hoffset, -⟩, ⟨w, hw, htype⟩, hrest⟩ := h
      obtain ⟨ms, rfl⟩ := obj_of_get? hname
      refine .cons (.object ?_) (trims_of_describesFields hrest)
      simp only [List.forall_mem_cons, List.not_mem_nil, false_implies, implies_true, and_true]
      exact ⟨trims_member hname (.refl _), trims_member hoffset (.refl _),
        trims_member hw (trims_of_describes htype)⟩

theorem trims_of_describesCtors : ∀ {ctors : List (Ctor Desc)} {items : List Json},
    DescribesCtors ctors items → List.Forall₂ Trims items (ctorsToJson ctors)
  | [], _, h => by
      rw [DescribesCtors] at h
      rw [h]
      exact .nil
  | c :: rest, items, h => by
      rw [DescribesCtors] at h
      obtain ⟨v, others, rfl, ⟨hid, -⟩, hname, ⟨w, hw, htype⟩, hrest⟩ := h
      obtain ⟨ms, rfl⟩ := obj_of_get? hname
      refine .cons (.object ?_) (trims_of_describesCtors hrest)
      simp only [List.forall_mem_cons, List.not_mem_nil, false_implies, implies_true, and_true]
      exact ⟨trims_member hid (.refl _), trims_member hname (.refl _),
        trims_member hw (trims_of_describes htype)⟩

end

/-! ## Listing violations -/

def natural? : Option Json → Option Nat
  | some (.num x) => x.toNat?
  | _ => none

/-- What keeps a value from being a text. -/
def textViolations (location : Text) : Option Json → List Violation
  | some (.str _) => []
  | _ => [.notText location]

/-- What keeps a value from being a natural number. -/
def naturalViolations (location : Text) (v : Option Json) : List Violation :=
  match natural? v with
  | some _ => []
  | none => [.notNatural location]

/-- What keeps a value from being a tag. -/
def tagViolations (location : Text) (v : Option Json) : List Violation :=
  match natural? v with
  | some n => if n ≤ 0xFFFFFFFF then [] else [.tooWide location]
  | none => [.notNatural location]

mutual

/-- All that keeps a value from being a descriptor, each part before what follows it. -/
def violations (node : Json) (location : Text) : List Violation :=
  match node with
  | .obj members =>
    match Json.lookup? "tag" members with
    | some (.str tag) =>
      if tag = Text.ofString "prim" then
        textViolations (location ++ ".name") (Json.lookup? "name" members)
      else if tag = Text.ofString "nat" then
        naturalViolations (location ++ ".value") (Json.lookup? "value" members)
      else if tag = Text.ofString "farr" then
        (match _h : Json.lookup? "elem" members with
          | some v => violations v (location ++ ".elem")
          | none => [.notObject (location ++ ".elem")]) ++
        (match _h : Json.lookup? "len" members with
          | some v => violations v (location ++ ".len")
          | none => [.notObject (location ++ ".len")])
      else if tag = Text.ofString "struct" then
        match _h : Json.lookup? "fields" members with
        | some (.arr items) => fieldViolations items (location ++ ".fields") 0
        | _ => [.notList (location ++ ".fields")]
      else if tag = Text.ofString "variant" then
        match _h : Json.lookup? "ctors" members with
        | some (.arr items) => ctorViolations items (location ++ ".ctors") 0
        | _ => [.notList (location ++ ".ctors")]
      else [.unknownTag location (some (.str tag))]
    | other => [.unknownTag location other]
  | _ => [.notObject location]
termination_by sizeOf node
decreasing_by
  all_goals
    have := sizeOf_lookup _h
    simp only [Json.obj.sizeOf_spec, Json.arr.sizeOf_spec] at *
    omega

/-- All that keeps items from being fields, from position `i` of the list on. -/
def fieldViolations (items : List Json) (location : Text) (i : Nat) : List Violation :=
  match items with
  | [] => []
  | .obj members :: rest =>
    textViolations (itemAt location i ++ ".name") (Json.lookup? "name" members) ++
      (naturalViolations (itemAt location i ++ ".offset") (Json.lookup? "offset" members) ++
      ((match _h : Json.lookup? "type" members with
        | some v => violations v (itemAt location i ++ ".type")
        | none => [.notObject (itemAt location i ++ ".type")]) ++
      fieldViolations rest location (i + 1)))
  | _ :: rest => .notObject (itemAt location i) :: fieldViolations rest location (i + 1)
termination_by sizeOf items
decreasing_by
  · have := sizeOf_lookup _h
    simp only [List.cons.sizeOf_spec, Json.obj.sizeOf_spec]
    omega
  · simp only [List.cons.sizeOf_spec]
    omega
  · simp only [List.cons.sizeOf_spec]
    omega

/-- All that keeps items from being constructors, from position `i` of the list on. -/
def ctorViolations (items : List Json) (location : Text) (i : Nat) : List Violation :=
  match items with
  | [] => []
  | .obj members :: rest =>
    tagViolations (itemAt location i ++ ".id") (Json.lookup? "id" members) ++
      (textViolations (itemAt location i ++ ".name") (Json.lookup? "name" members) ++
      ((match _h : Json.lookup? "type" members with
        | some v => violations v (itemAt location i ++ ".type")
        | none => [.notObject (itemAt location i ++ ".type")]) ++
      ctorViolations rest location (i + 1)))
  | _ :: rest => .notObject (itemAt location i) :: ctorViolations rest location (i + 1)
termination_by sizeOf items
decreasing_by
  · have := sizeOf_lookup _h
    simp only [List.cons.sizeOf_spec, Json.obj.sizeOf_spec]
    omega
  · simp only [List.cons.sizeOf_spec]
    omega
  · simp only [List.cons.sizeOf_spec]
    omega

end

/-- All that keeps a value that may be absent from being a descriptor. -/
def violations? (node : Option Json) (location : Text) : List Violation :=
  match node with
  | some v => violations v location
  | none => [.notObject location]

/-- Where the grammar is broken. A text that is no JSON at all has no location. -/
def Violation.location? : Violation → Option Text
  | notObject location | notText location | notNatural location | notList location => some location
  | tooWide location | unknownTag location _ => some location
  | notDocument => none

/-- The words begin with the location. -/
theorem Violation.text_of_location {x : Violation} {location : Text}
    (h : x.location? = some location) : ∃ rest, x.text = location ++ rest := by
  cases x with
  | notDocument => cases h
  | unknownTag at' tag =>
      cases h
      exact ⟨_, List.append_assoc _ _ _⟩
  | _ =>
      cases h
      exact ⟨_, rfl⟩

/-! ## Reading stops at the first violation -/

/-- A reading at a location comes to a value if nothing is listed, and otherwise stops at the first
entry, which lies at the location or inside. -/
inductive Stops {α : Type} (location : Text) : Except Violation α → List Violation → Prop
  | through {a : α} : Stops location (.ok a) []
  | first {x : Violation} {rest : List Violation} {inside : Text}
      (h : x.location? = some (location ++ inside)) : Stops location (.error x) (x :: rest)

section Stops

variable {α β : Type} {location : Text}

theorem stops_here {x : Violation} (h : x.location? = some location) (rest : List Violation) :
    Stops location (.error x : Except Violation α) (x :: rest) :=
  .first (h.trans (congrArg some (List.append_nil location).symm))

/-- What lies inside a part lies inside the whole. -/
theorem Stops.outside {part : Text} {r : Except Violation α} {listed : List Violation}
    (h : Stops (location ++ part) r listed) : Stops location r listed := by
  cases h with
  | through => exact .through
  | first h => exact .first (h.trans (congrArg some (List.append_assoc _ _ _)))

theorem itemAt_eq (location : Text) (i : Nat) :
    itemAt location i =
      location ++ (Text.ofString "[" ++ (Text.ofNat i ++ Text.ofString "]")) := by
  rw [itemAt, List.append_assoc, List.append_assoc]

/-- What lies inside an item lies inside the list. -/
theorem Stops.outside_item {i : Nat} {r : Except Violation α} {listed : List Violation}
    (h : Stops (itemAt location i) r listed) : Stops location r listed := by
  rw [itemAt_eq] at h
  exact h.outside

theorem Stops.bind {r : Except Violation α} {next : α → Except Violation β}
    {listed listed' : List Violation} (h : Stops location r listed)
    (hnext : ∀ a, r = .ok a → Stops location (next a) listed') :
    Stops location (r >>= next) (listed ++ listed') := by
  cases h with
  | through => exact hnext _ rfl
  | first h => exact .first h

theorem Stops.map {r : Except Violation α} {f : α → β} {listed : List Violation}
    (h : Stops location r listed) : Stops location (r >>= fun a => pure (f a)) listed := by
  cases h with
  | through => exact .through
  | first h => exact .first h

theorem Stops.ok_iff {r : Except Violation α} {listed : List Violation} (h : Stops location r listed) :
    (∃ a, r = .ok a) ↔ listed = [] := by
  cases h with
  | through => simp
  | first h => simp

theorem Stops.head_of_error {r : Except Violation α} {listed : List Violation}
    (h : Stops location r listed) {x : Violation} (hx : r = .error x) :
    listed.head? = some x ∧ ∃ inside, x.location? = some (location ++ inside) := by
  cases h with
  | through => cases hx
  | first h =>
      cases hx
      exact ⟨rfl, _, h⟩

theorem stops_text (v : Option Json) :
    Stops location (readText location v) (textViolations location v) := by
  cases v with
  | none => exact stops_here rfl []
  | some w =>
      cases w with
      | str t => exact .through
      | _ => exact stops_here rfl []

theorem natural?_eq_some {x : Num} {n : Nat} : natural? (some (.num x)) = some n ↔ x.Is n :=
  ⟨is_of_toNat?, Is.toNat?⟩

/-- A value that is no natural number is not read as one. -/
theorem readNatural_error {v : Option Json} (h : natural? v = none) :
    readNatural location v = .error (.notNatural location) := by
  cases hread : readNatural location v with
  | ok x =>
      obtain ⟨rfl, n, hn⟩ := readNatural_eq_ok.mp hread
      rw [natural?_eq_some.mpr hn] at h
      cases h
  | error e =>
      unfold readNatural at hread
      split at hread
      · split at hread
        · cases hread
        · exact hread.symm ▸ rfl
      · exact hread.symm ▸ rfl

theorem natural_of_some {v : Option Json} {n : Nat} (h : natural? v = some n) :
    ∃ x, v = some (.num x) ∧ x.Is n := by
  unfold natural? at h
  split at h
  · exact ⟨_, rfl, is_of_toNat? h⟩
  · cases h

theorem stops_natural (v : Option Json) :
    Stops location (readNatural location v) (naturalViolations location v) := by
  rw [naturalViolations]
  cases h : natural? v with
  | none =>
      rw [readNatural_error h]
      exact stops_here rfl []
  | some n =>
      obtain ⟨x, rfl, hx⟩ := natural_of_some h
      rw [readNatural_eq_ok.mpr ⟨rfl, n, hx⟩]
      exact .through

theorem stops_tag (v : Option Json) :
    Stops location (readTag location v) (tagViolations location v) := by
  rw [tagViolations]
  cases h : natural? v with
  | none =>
      rw [readTag, readNatural_error h]
      exact stops_here rfl []
  | some n =>
      obtain ⟨x, rfl, hx⟩ := natural_of_some h
      simp only
      split
      · rename_i hle
        rw [readTag_eq_ok.mpr ⟨rfl, n, hx, Nat.lt_succ_of_le hle⟩]
        exact .through
      · rename_i hwide
        have hmax : (0xFFFFFFFF : Num).Is 0xFFFFFFFF := is_ofNat (by decide)
        have hlt : (0xFFFFFFFF : Num).lt x = true := by
          rw [lt_of_is hmax hx]
          exact decide_eq_true (by omega)
        rw [readTag, readNatural_eq_ok.mpr ⟨rfl, n, hx⟩]
        show Stops location (if Num.lt 0xFFFFFFFF x then .error _ else .ok x) _
        rw [if_pos hlt]
        exact stops_here rfl []

end Stops

/-! ## One step of the listing -/

section Tags

variable {ms : Json.Members} {location : Text}

theorem violations_prim (htag : Json.lookup? "tag" ms = some (.str "prim")) :
    violations (.obj ms) location =
      textViolations (location ++ ".name") (Json.lookup? "name" ms) := by
  rw [violations]
  simp only [htag, if_pos]

theorem violations_nat (htag : Json.lookup? "tag" ms = some (.str "nat")) :
    violations (.obj ms) location =
      naturalViolations (location ++ ".value") (Json.lookup? "value" ms) := by
  have hprim : Text.ofString "nat" ≠ Text.ofString "prim" := by decide
  rw [violations]
  simp only [htag, if_neg hprim, if_pos]

theorem violations_array (htag : Json.lookup? "tag" ms = some (.str "farr")) :
    violations (.obj ms) location =
      violations? (Json.lookup? "elem" ms) (location ++ ".elem") ++
        violations? (Json.lookup? "len" ms) (location ++ ".len") := by
  have hprim : Text.ofString "farr" ≠ Text.ofString "prim" := by decide
  have hnat : Text.ofString "farr" ≠ Text.ofString "nat" := by decide
  rw [violations]
  simp only [htag, if_neg hprim, if_neg hnat, if_pos]
  cases Json.lookup? "elem" ms with
  | none => cases Json.lookup? "len" ms <;> rfl
  | some v => cases Json.lookup? "len" ms <;> rfl

theorem violations_struct (htag : Json.lookup? "tag" ms = some (.str "struct")) :
    violations (.obj ms) location =
      match Json.lookup? "fields" ms with
      | some (.arr items) => fieldViolations items (location ++ ".fields") 0
      | _ => [.notList (location ++ ".fields")] := by
  have hprim : Text.ofString "struct" ≠ Text.ofString "prim" := by decide
  have hnat : Text.ofString "struct" ≠ Text.ofString "nat" := by decide
  have harray : Text.ofString "struct" ≠ Text.ofString "farr" := by decide
  rw [violations]
  simp only [htag, if_neg hprim, if_neg hnat, if_neg harray, if_pos]
  cases Json.lookup? "fields" ms with
  | none => rfl
  | some v => cases v <;> rfl

theorem violations_variant (htag : Json.lookup? "tag" ms = some (.str "variant")) :
    violations (.obj ms) location =
      match Json.lookup? "ctors" ms with
      | some (.arr items) => ctorViolations items (location ++ ".ctors") 0
      | _ => [.notList (location ++ ".ctors")] := by
  have hprim : Text.ofString "variant" ≠ Text.ofString "prim" := by decide
  have hnat : Text.ofString "variant" ≠ Text.ofString "nat" := by decide
  have harray : Text.ofString "variant" ≠ Text.ofString "farr" := by decide
  have hstruct : Text.ofString "variant" ≠ Text.ofString "struct" := by decide
  rw [violations]
  simp only [htag, if_neg hprim, if_neg hnat, if_neg harray, if_neg hstruct, if_pos]
  cases Json.lookup? "ctors" ms with
  | none => rfl
  | some v => cases v <;> rfl

theorem fieldViolations_obj {rest : List Json} {i : Nat} :
    fieldViolations (.obj ms :: rest) location i =
      textViolations (itemAt location i ++ ".name") (Json.lookup? "name" ms) ++
        (naturalViolations (itemAt location i ++ ".offset") (Json.lookup? "offset" ms) ++
        (violations? (Json.lookup? "type" ms) (itemAt location i ++ ".type") ++
        fieldViolations rest location (i + 1))) := by
  rw [fieldViolations]
  cases Json.lookup? "type" ms <;> rfl

theorem ctorViolations_obj {rest : List Json} {i : Nat} :
    ctorViolations (.obj ms :: rest) location i =
      tagViolations (itemAt location i ++ ".id") (Json.lookup? "id" ms) ++
        (textViolations (itemAt location i ++ ".name") (Json.lookup? "name" ms) ++
        (violations? (Json.lookup? "type" ms) (itemAt location i ++ ".type") ++
        ctorViolations rest location (i + 1))) := by
  rw [ctorViolations]
  cases Json.lookup? "type" ms <;> rfl

/-- A tag that no kind of node bears. -/
theorem stops_unknown {tag : Option Json} (htag : Json.lookup? "tag" ms = tag)
    (h : ∀ t ∈ ["prim", "nat", "farr", "struct", "variant"].map Text.ofString, tag ≠ some (.str t)) :
    Stops location (ofJson (.obj ms) location) (violations (.obj ms) location) := by
  simp only [List.map_cons, List.map_nil, List.forall_mem_cons, List.not_mem_nil, false_implies,
    implies_true, and_true] at h
  obtain ⟨hprim, hnat, harray, hstruct, hvariant⟩ := h
  rw [ofJson, violations]
  cases tag with
  | none =>
      simp only [htag]
      exact stops_here rfl []
  | some w =>
      cases w with
      | str t =>
          have hne : ∀ {name : Text}, some (Json.str t) ≠ some (Json.str name) → t ≠ name :=
            fun h heq => h (congrArg (fun t => some (Json.str t)) heq)
          simp only [htag, if_neg (hne hprim), if_neg (hne hnat), if_neg (hne harray),
            if_neg (hne hstruct), if_neg (hne hvariant)]
          exact stops_here rfl []
      | _ =>
          simp only [htag]
          exact stops_here rfl []

end Tags

/-! ## The whole reading -/

/-- Every value below a size is read up to its first violation. -/
def StopsBelow (size : Nat) : Prop :=
  ∀ v : Json, sizeOf v < size → ∀ location, Stops location (ofJson v location) (violations v location)

section Below

variable {size : Nat} {ms : Json.Members}

theorem stops_member (below : StopsBelow size) (hsize : sizeOf ms ≤ size) (name location : Text) :
    Stops location (ofJson? (Json.lookup? name ms) location)
      (violations? (Json.lookup? name ms) location) := by
  cases h : Json.lookup? name ms with
  | none => exact stops_here rfl []
  | some v => exact below v (lt_of_lt_of_le (sizeOf_lookup h) hsize) location

theorem stops_fields (below : StopsBelow size) {items : List Json} (hsize : sizeOf items ≤ size)
    (location : Text) (i : Nat) :
    Stops location (fieldsOfJson items location i) (fieldViolations items location i) := by
  induction items generalizing i with
  | nil =>
      rw [fieldsOfJson, fieldViolations]
      exact .through
  | cons item rest ih =>
      simp only [List.cons.sizeOf_spec] at hsize
      have hrest := ih (by omega) (i + 1)
      cases item with
      | obj ms =>
          simp only [Json.obj.sizeOf_spec] at hsize
          rw [fieldsOfJson_obj, fieldViolations_obj]
          refine (stops_text _).outside.outside_item.bind fun _ _ => ?_
          refine (stops_natural _).outside.outside_item.bind fun _ _ => ?_
          refine (stops_member below (by omega) _ _).outside.outside_item.bind fun _ _ => ?_
          exact hrest.map
      | _ =>
          rw [fieldsOfJson, fieldViolations]
          · exact (stops_here rfl _).outside_item
          all_goals simp

theorem stops_ctors (below : StopsBelow size) {items : List Json} (hsize : sizeOf items ≤ size)
    (location : Text) (i : Nat) :
    Stops location (ctorsOfJson items location i) (ctorViolations items location i) := by
  induction items generalizing i with
  | nil =>
      rw [ctorsOfJson, ctorViolations]
      exact .through
  | cons item rest ih =>
      simp only [List.cons.sizeOf_spec] at hsize
      have hrest := ih (by omega) (i + 1)
      cases item with
      | obj ms =>
          simp only [Json.obj.sizeOf_spec] at hsize
          rw [ctorsOfJson_obj, ctorViolations_obj]
          refine (stops_tag _).outside.outside_item.bind fun _ _ => ?_
          refine (stops_text _).outside.outside_item.bind fun _ _ => ?_
          refine (stops_member below (by omega) _ _).outside.outside_item.bind fun _ _ => ?_
          exact hrest.map
      | _ =>
          rw [ctorsOfJson, ctorViolations]
          · exact (stops_here rfl _).outside_item
          all_goals simp

/-- One node, if the values in its members are read up to their first violations. -/
theorem stops_object (below : StopsBelow size) (hsize : sizeOf ms ≤ size) (location : Text) :
    Stops location (ofJson (.obj ms) location) (violations (.obj ms) location) := by
  by_cases hprim : Json.lookup? "tag" ms = some (.str "prim")
  · rw [ofJson_prim hprim, violations_prim hprim]
    exact (stops_text _).outside.map
  by_cases hnat : Json.lookup? "tag" ms = some (.str "nat")
  · rw [ofJson_nat hnat, violations_nat hnat]
    exact (stops_natural _).outside.map
  by_cases harray : Json.lookup? "tag" ms = some (.str "farr")
  · rw [ofJson_array harray, violations_array harray]
    exact (stops_member below hsize _ _).outside.bind fun _ _ =>
      (stops_member below hsize _ _).outside.map
  by_cases hstruct : Json.lookup? "tag" ms = some (.str "struct")
  · rw [ofJson_struct hstruct, violations_struct hstruct]
    cases hfields : Json.lookup? "fields" ms with
    | none => exact (stops_here rfl []).outside
    | some v =>
        cases v with
        | arr items =>
            have hlt := sizeOf_lookup hfields
            simp only [Json.arr.sizeOf_spec] at hlt
            exact (stops_fields below (by omega) _ 0).outside.map
        | _ => exact (stops_here rfl []).outside
  by_cases hvariant : Json.lookup? "tag" ms = some (.str "variant")
  · rw [ofJson_variant hvariant, violations_variant hvariant]
    cases hctors : Json.lookup? "ctors" ms with
    | none => exact (stops_here rfl []).outside
    | some v =>
        cases v with
        | arr items =>
            have hlt := sizeOf_lookup hctors
            simp only [Json.arr.sizeOf_spec] at hlt
            exact (stops_ctors below (by omega) _ 0).outside.map
        | _ => exact (stops_here rfl []).outside
  refine stops_unknown rfl ?_
  simp only [List.map_cons, List.map_nil, List.forall_mem_cons, List.not_mem_nil, false_implies,
    implies_true, and_true]
  exact ⟨hprim, hnat, harray, hstruct, hvariant⟩

end Below

theorem stopsBelow (size : Nat) : StopsBelow size := by
  induction size with
  | zero => exact fun v h => absurd h (Nat.not_lt_zero _)
  | succ size ih =>
      intro v hsize location
      cases v with
      | obj ms =>
          simp only [Json.obj.sizeOf_spec] at hsize
          exact stops_object ih (by omega) location
      | _ =>
          rw [ofJson, violations]
          · exact stops_here rfl []
          all_goals simp

/-- **Reading stops at the first violation**, and comes to a descriptor if there is none. -/
theorem stops_ofJson (v : Json) (location : Text) :
    Stops location (ofJson v location) (violations v location) :=
  stopsBelow (sizeOf v + 1) v (Nat.lt_succ_self _) location

/-- **Reading accepts the grammar and locates the first violation of it.** A descriptor that is
read is the value with all members dropped that the grammar does not name. -/
theorem ofJson_grammar (v : Json) (location : Text) :
    ((∃ d, ofJson v location = .ok d) ↔ Conforms v) ∧
      (Conforms v ↔ violations v location = []) ∧
      (∀ d, ofJson v location = .ok d → d.Describes v ∧ Trims v d.toJson) ∧
      ∀ x, ofJson v location = .error x →
        (violations v location).head? = some x ∧
          x.cause.failure.reason = .invalidDescriptor ∧
          ∃ inside rest, x.location? = some (location ++ inside) ∧
            x.cause.failure.message =
              "Invalid type descriptor: " ++ (location ++ inside ++ rest) := by
  have hstops := stops_ofJson v location
  have hconforms : (∃ d, ofJson v location = .ok d) ↔ Conforms v := by
    rw [conforms_iff]
    exact exists_congr fun d => ofJson_eq_ok_iff
  refine ⟨hconforms, hconforms.symm.trans hstops.ok_iff, fun d hd => ?_, fun x hx => ?_⟩
  · have hdescribes := ofJson_eq_ok_iff.mp hd
    exact ⟨hdescribes, trims_of_describes hdescribes⟩
  · obtain ⟨hhead, inside, hlocation⟩ := hstops.head_of_error hx
    obtain ⟨rest, htext⟩ := Violation.text_of_location hlocation
    exact ⟨hhead, rfl, inside, rest, hlocation,
      congrArg (Text.ofString "Invalid type descriptor: " ++ ·) htext⟩

end Relayout.Desc

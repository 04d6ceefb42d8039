import Relayout.Proofs.DescLayout
import Relayout.Desc.Codec

/-!
# What a document states

`Describes` says, by recursion on a descriptor, which JSON values state it: only
the members that the grammar names count, whatever else an object holds. Reading
a value as a descriptor is exact with respect to it (`ofJson_eq_ok_iff`), so the
checks that reading makes and the locations that it reports need not be followed
again.
-/

namespace Relayout.Desc

open Relayout.Num

/-! ## The description relation -/

mutual

/-- The JSON value states the descriptor. -/
def Describes : Desc → Json → Prop
  | prim name, v => v.get? "tag" = some (.str "prim") ∧ v.get? "name" = some (.str name)
  | nat value, v =>
    v.get? "tag" = some (.str "nat") ∧ v.get? "value" = some (.num value) ∧ ∃ n, value.Is n
  | array elem len, v =>
    v.get? "tag" = some (.str "farr") ∧ (∃ w, v.get? "elem" = some w ∧ Describes elem w) ∧
      ∃ w, v.get? "len" = some w ∧ Describes len w
  | struct fields, v =>
    v.get? "tag" = some (.str "struct") ∧
      ∃ items, v.get? "fields" = some (.arr items) ∧ DescribesFields fields items
  | variant ctors, v =>
    v.get? "tag" = some (.str "variant") ∧
      ∃ items, v.get? "ctors" = some (.arr items) ∧ DescribesCtors ctors items

def DescribesFields : List (Field Desc) → List Json → Prop
  | [], items => items = []
  | f :: rest, items =>
    ∃ v others, items = v :: others ∧ v.get? "name" = some (.str f.name) ∧
      (v.get? "offset" = some (.num f.offset) ∧ ∃ n, f.offset.Is n) ∧
      (∃ w, v.get? "type" = some w ∧ Describes f.type w) ∧ DescribesFields rest others

def DescribesCtors : List (Ctor Desc) → List Json → Prop
  | [], items => items = []
  | c :: rest, items =>
    ∃ v others, items = v :: others ∧
      (v.get? "id" = some (.num c.id) ∧ ∃ n, c.id.Is n ∧ n < twoPow 32) ∧
      v.get? "name" = some (.str c.name) ∧
      (∃ w, v.get? "type" = some w ∧ Describes c.type w) ∧ DescribesCtors rest others

end

theorem describesFields_cons {f : Field Desc} {rest : List (Field Desc)} {v : Json}
    {others : List Json} :
    DescribesFields (f :: rest) (v :: others) ↔
      v.get? "name" = some (.str f.name) ∧ (v.get? "offset" = some (.num f.offset) ∧ ∃ n, f.offset.Is n) ∧
        (∃ w, v.get? "type" = some w ∧ f.type.Describes w) ∧ DescribesFields rest others := by
  rw [DescribesFields]
  constructor
  · rintro ⟨_, _, hcons, h⟩
    cases hcons
    exact h
  · exact fun h => ⟨v, others, rfl, h⟩

theorem describesCtors_cons {c : Ctor Desc} {rest : List (Ctor Desc)} {v : Json}
    {others : List Json} :
    DescribesCtors (c :: rest) (v :: others) ↔
      (v.get? "id" = some (.num c.id) ∧ ∃ n, c.id.Is n ∧ n < twoPow 32) ∧
        v.get? "name" = some (.str c.name) ∧
        (∃ w, v.get? "type" = some w ∧ c.type.Describes w) ∧ DescribesCtors rest others := by
  rw [DescribesCtors]
  constructor
  · rintro ⟨_, _, hcons, h⟩
    cases hcons
    exact h
  · exact fun h => ⟨v, others, rfl, h⟩

/-- Only an object has members. -/
theorem obj_of_get? {name : Text} {v w : Json} (h : v.get? name = some w) : ∃ ms, v = .obj ms := by
  cases v with
  | obj ms => exact ⟨ms, rfl⟩
  | _ => cases h

/-! ## One step of reading -/

theorem readText_eq_ok {location t : Text} {v : Option Json} :
    readText location v = .ok t ↔ v = some (.str t) := by
  constructor
  · intro h
    unfold readText at h
    split at h
    · cases h
      rfl
    · cases h
  · rintro rfl
    rfl

theorem readNatural_eq_ok {location : Text} {v : Option Json} {x : Num} :
    readNatural location v = .ok x ↔ v = some (.num x) ∧ ∃ n, x.Is n := by
  constructor
  · intro h
    unfold readNatural at h
    split at h
    · split at h
      · rename_i hwhole
        cases h
        rw [Bool.and_eq_true, Bool.not_eq_true'] at hwhole
        exact ⟨rfl, isWhole_not_lt_iff.mp hwhole⟩
      · cases h
    · cases h
  · rintro ⟨rfl, hx⟩
    obtain ⟨hwhole, hlt⟩ := isWhole_not_lt_iff.mpr hx
    simp [readNatural, hwhole, hlt]

theorem readTag_eq_ok {location : Text} {v : Option Json} {x : Num} :
    readTag location v = .ok x ↔ v = some (.num x) ∧ ∃ n, x.Is n ∧ n < twoPow 32 := by
  have hmax : (0xFFFFFFFF : Num).Is 0xFFFFFFFF := is_ofNat (by decide)
  have hlimit : twoPow 32 = 0xFFFFFFFF + 1 := by decide
  rw [readTag, bind_eq_ok]
  constructor
  · rintro ⟨id, hid, h⟩
    obtain ⟨rfl, n, hn⟩ := readNatural_eq_ok.mp hid
    rw [lt_of_is hmax hn] at h
    by_cases hlt : 0xFFFFFFFF < n
    · simp [hlt, bind, Except.bind, throw, throwThe, MonadExceptOf.throw] at h
    · simp [hlt, pure, Except.pure] at h
      exact ⟨h ▸ rfl, n, h ▸ hn, by omega⟩
  · rintro ⟨rfl, n, hn, hlt⟩
    refine ⟨x, readNatural_eq_ok.mpr ⟨rfl, n, hn⟩, ?_⟩
    have hfits : ¬0xFFFFFFFF < n := by omega
    rw [lt_of_is hmax hn]
    simp [hfits, pure, Except.pure]

theorem ofJson?_eq_ok {location : Text} {v : Option Json} {d : Desc} :
    ofJson? v location = .ok d ↔ ∃ w, v = some w ∧ ofJson w location = .ok d := by
  cases v with
  | none => simp [ofJson?]
  | some w => simp [ofJson?]

section Tags

variable {ms : Json.Members} {location : Text}

theorem ofJson_prim (htag : Json.lookup? "tag" ms = some (.str "prim")) :
    ofJson (.obj ms) location =
      (do return prim (← readText (location ++ ".name") (Json.lookup? "name" ms))) := by
  rw [ofJson]
  simp only [htag, if_pos]

theorem ofJson_nat (htag : Json.lookup? "tag" ms = some (.str "nat")) :
    ofJson (.obj ms) location =
      (do return nat (← readNatural (location ++ ".value") (Json.lookup? "value" ms))) := by
  have hprim : Text.ofString "nat" ≠ Text.ofString "prim" := by decide
  rw [ofJson]
  simp only [htag, if_neg hprim, if_pos]

theorem ofJson_array (htag : Json.lookup? "tag" ms = some (.str "farr")) :
    ofJson (.obj ms) location = (do
      let elem ← ofJson? (Json.lookup? "elem" ms) (location ++ ".elem")
      let len ← ofJson? (Json.lookup? "len" ms) (location ++ ".len")
      return array elem len) := by
  have hprim : Text.ofString "farr" ≠ Text.ofString "prim" := by decide
  have hnat : Text.ofString "farr" ≠ Text.ofString "nat" := by decide
  rw [ofJson]
  simp only [htag, if_neg hprim, if_neg hnat, if_pos]
  cases helem : Json.lookup? "elem" ms with
  | none => rfl
  | some v =>
      cases hlen : Json.lookup? "len" ms with
      | none => rfl
      | some w => rfl

theorem ofJson_struct (htag : Json.lookup? "tag" ms = some (.str "struct")) :
    ofJson (.obj ms) location =
      match Json.lookup? "fields" ms with
      | some (.arr items) => (do return struct (← fieldsOfJson items (location ++ ".fields") 0))
      | _ => throw (.notList (location ++ ".fields")) := by
  have hprim : Text.ofString "struct" ≠ Text.ofString "prim" := by decide
  have hnat : Text.ofString "struct" ≠ Text.ofString "nat" := by decide
  have harray : Text.ofString "struct" ≠ Text.ofString "farr" := by decide
  rw [ofJson]
  simp only [htag, if_neg hprim, if_neg hnat, if_neg harray, if_pos]
  cases Json.lookup? "fields" ms with
  | none => rfl
  | some v => cases v <;> rfl

theorem ofJson_variant (htag : Json.lookup? "tag" ms = some (.str "variant")) :
    ofJson (.obj ms) location =
      match Json.lookup? "ctors" ms with
      | some (.arr items) => (do return variant (← ctorsOfJson items (location ++ ".ctors") 0))
      | _ => throw (.notList (location ++ ".ctors")) := by
  have hprim : Text.ofString "variant" ≠ Text.ofString "prim" := by decide
  have hnat : Text.ofString "variant" ≠ Text.ofString "nat" := by decide
  have harray : Text.ofString "variant" ≠ Text.ofString "farr" := by decide
  have hstruct : Text.ofString "variant" ≠ Text.ofString "struct" := by decide
  rw [ofJson]
  simp only [htag, if_neg hprim, if_neg hnat, if_neg harray, if_neg hstruct, if_pos]
  cases Json.lookup? "ctors" ms with
  | none => rfl
  | some v => cases v <;> rfl

/-- Only objects with one of the five tags are descriptors. -/
theorem tag_of_ofJson {v : Json} {d : Desc} (h : ofJson v location = .ok d) :
    ∃ ms tag, v = .obj ms ∧ Json.lookup? "tag" ms = some (.str tag) ∧
      tag ∈ ["prim", "nat", "farr", "struct", "variant"].map Text.ofString := by
  cases v with
  | obj ms =>
      rw [ofJson] at h
      cases htag : Json.lookup? "tag" ms with
      | none => simp [htag, throw, throwThe, MonadExceptOf.throw] at h
      | some w =>
          cases w with
          | str tag =>
              refine ⟨ms, tag, rfl, htag, ?_⟩
              by_contra hne
              simp only [List.map_cons, List.map_nil, List.mem_cons, List.not_mem_nil, or_false,
                not_or] at hne
              obtain ⟨hprim, hnat, harray, hstruct, hvariant⟩ := hne
              simp only [htag, if_neg hprim, if_neg hnat, if_neg harray, if_neg hstruct,
                if_neg hvariant] at h
              cases h
          | _ => simp [htag, throw, throwThe, MonadExceptOf.throw] at h
  | _ =>
      rw [ofJson] at h
      · cases h
      · simp

/-- What reading finds in an object besides its tag. -/
def Content (ms : Json.Members) (location : Text) : Desc → Prop
  | prim name => Json.lookup? "name" ms = some (.str name)
  | nat value => Json.lookup? "value" ms = some (.num value) ∧ ∃ n, value.Is n
  | array elem len =>
    (∃ w, Json.lookup? "elem" ms = some w ∧ ofJson w (location ++ ".elem") = .ok elem) ∧
      ∃ w, Json.lookup? "len" ms = some w ∧ ofJson w (location ++ ".len") = .ok len
  | struct fields =>
    ∃ items, Json.lookup? "fields" ms = some (.arr items) ∧
      fieldsOfJson items (location ++ ".fields") 0 = .ok fields
  | variant ctors =>
    ∃ items, Json.lookup? "ctors" ms = some (.arr items) ∧
      ctorsOfJson items (location ++ ".ctors") 0 = .ok ctors

theorem ofJson_of_content {d : Desc} (htag : Json.lookup? "tag" ms = some (.str d.tag))
    (h : Content ms location d) : ofJson (.obj ms) location = .ok d := by
  cases d with
  | prim name =>
      rw [ofJson_prim htag, bind_eq_ok]
      exact ⟨name, readText_eq_ok.mpr h, rfl⟩
  | nat value =>
      rw [ofJson_nat htag, bind_eq_ok]
      exact ⟨value, readNatural_eq_ok.mpr h, rfl⟩
  | array elem len =>
      rw [ofJson_array htag, bind_eq_ok]
      refine ⟨elem, ofJson?_eq_ok.mpr h.1, ?_⟩
      rw [bind_eq_ok]
      exact ⟨len, ofJson?_eq_ok.mpr h.2, rfl⟩
  | struct fields =>
      obtain ⟨items, hitems, hfields⟩ := h
      rw [ofJson_struct htag, hitems]
      exact bind_eq_ok.mpr ⟨fields, hfields, rfl⟩
  | variant ctors =>
      obtain ⟨items, hitems, hctors⟩ := h
      rw [ofJson_variant htag, hitems]
      exact bind_eq_ok.mpr ⟨ctors, hctors, rfl⟩

theorem content_of_ofJson {v : Json} {d : Desc} (h : ofJson v location = .ok d) :
    ∃ ms, v = .obj ms ∧ Json.lookup? "tag" ms = some (.str d.tag) ∧ Content ms location d := by
  obtain ⟨ms, tag, rfl, htag, hmem⟩ := tag_of_ofJson h
  refine ⟨ms, rfl, ?_⟩
  simp only [List.map_cons, List.map_nil, List.mem_cons, List.not_mem_nil, or_false] at hmem
  rcases hmem with rfl | rfl | rfl | rfl | rfl
  · rw [ofJson_prim htag, bind_eq_ok] at h
    obtain ⟨name, hname, hd⟩ := h
    cases hd
    exact ⟨htag, readText_eq_ok.mp hname⟩
  · rw [ofJson_nat htag, bind_eq_ok] at h
    obtain ⟨value, hvalue, hd⟩ := h
    cases hd
    exact ⟨htag, readNatural_eq_ok.mp hvalue⟩
  · rw [ofJson_array htag, bind_eq_ok] at h
    obtain ⟨elem, helem, h⟩ := h
    obtain ⟨len, hlen, hd⟩ := bind_eq_ok.mp h
    cases hd
    exact ⟨htag, ofJson?_eq_ok.mp helem, ofJson?_eq_ok.mp hlen⟩
  · rw [ofJson_struct htag] at h
    split at h
    · rename_i items hitems
      obtain ⟨fields, hfields, hd⟩ := bind_eq_ok.mp h
      cases hd
      exact ⟨htag, items, hitems, hfields⟩
    · cases h
  · rw [ofJson_variant htag] at h
    split at h
    · rename_i items hitems
      obtain ⟨ctors, hctors, hd⟩ := bind_eq_ok.mp h
      cases hd
      exact ⟨htag, items, hitems, hctors⟩
    · cases h

end Tags

/-! ## One step through a list -/

section Lists

variable {location : Text} {i : Nat} {ms : Json.Members} {items rest : List Json}

theorem fieldsOfJson_obj : fieldsOfJson (.obj ms :: rest) location i = (do
    let name ← readText (itemAt location i ++ ".name") (Json.lookup? "name" ms)
    let offset ← readNatural (itemAt location i ++ ".offset") (Json.lookup? "offset" ms)
    let type ← ofJson? (Json.lookup? "type" ms) (itemAt location i ++ ".type")
    return ⟨name, offset, type⟩ :: (← fieldsOfJson rest location (i + 1))) := by
  rw [fieldsOfJson]
  cases Json.lookup? "type" ms with
  | none => rfl
  | some v => rfl

theorem ctorsOfJson_obj : ctorsOfJson (.obj ms :: rest) location i = (do
    let id ← readTag (itemAt location i ++ ".id") (Json.lookup? "id" ms)
    let name ← readText (itemAt location i ++ ".name") (Json.lookup? "name" ms)
    let type ← ofJson? (Json.lookup? "type" ms) (itemAt location i ++ ".type")
    return ⟨name, id, type⟩ :: (← ctorsOfJson rest location (i + 1))) := by
  rw [ctorsOfJson]
  cases Json.lookup? "type" ms with
  | none => rfl
  | some v => rfl

/-- Fields are read off a list that is empty or starts with an object. -/
theorem shape_of_fieldsOfJson {fields : List (Field Desc)}
    (h : fieldsOfJson items location i = .ok fields) :
    items = [] ∧ fields = [] ∨ ∃ ms others, items = .obj ms :: others := by
  cases items with
  | nil =>
      rw [fieldsOfJson] at h
      cases h
      exact Or.inl ⟨rfl, rfl⟩
  | cons v others =>
      cases v with
      | obj ms => exact Or.inr ⟨ms, others, rfl⟩
      | _ =>
          rw [fieldsOfJson] at h
          · cases h
          · simp

theorem shape_of_ctorsOfJson {ctors : List (Ctor Desc)}
    (h : ctorsOfJson items location i = .ok ctors) :
    items = [] ∧ ctors = [] ∨ ∃ ms others, items = .obj ms :: others := by
  cases items with
  | nil =>
      rw [ctorsOfJson] at h
      cases h
      exact Or.inl ⟨rfl, rfl⟩
  | cons v others =>
      cases v with
      | obj ms => exact Or.inr ⟨ms, others, rfl⟩
      | _ =>
          rw [ctorsOfJson] at h
          · cases h
          · simp

theorem fieldsOfJson_obj_eq_ok {fields : List (Field Desc)} :
    fieldsOfJson (.obj ms :: rest) location i = .ok fields ↔
      ∃ f others, fields = f :: others ∧ Json.lookup? "name" ms = some (.str f.name) ∧
        (Json.lookup? "offset" ms = some (.num f.offset) ∧ ∃ n, f.offset.Is n) ∧
        (∃ w, Json.lookup? "type" ms = some w ∧
          ofJson w (itemAt location i ++ ".type") = .ok f.type) ∧
        fieldsOfJson rest location (i + 1) = .ok others := by
  simp only [fieldsOfJson_obj, bind_eq_ok, readText_eq_ok, readNatural_eq_ok, ofJson?_eq_ok]
  constructor
  · rintro ⟨name, hname, offset, hoffset, type, htype, others, hrest, heq⟩
    cases heq
    exact ⟨⟨name, offset, type⟩, others, rfl, hname, hoffset, htype, hrest⟩
  · rintro ⟨f, others, rfl, hname, hoffset, htype, hrest⟩
    exact ⟨f.name, hname, f.offset, hoffset, f.type, htype, others, hrest, rfl⟩

theorem ctorsOfJson_obj_eq_ok {ctors : List (Ctor Desc)} :
    ctorsOfJson (.obj ms :: rest) location i = .ok ctors ↔
      ∃ c others, ctors = c :: others ∧
        (Json.lookup? "id" ms = some (.num c.id) ∧ ∃ n, c.id.Is n ∧ n < twoPow 32) ∧
        Json.lookup? "name" ms = some (.str c.name) ∧
        (∃ w, Json.lookup? "type" ms = some w ∧
          ofJson w (itemAt location i ++ ".type") = .ok c.type) ∧
        ctorsOfJson rest location (i + 1) = .ok others := by
  simp only [ctorsOfJson_obj, bind_eq_ok, readText_eq_ok, readTag_eq_ok, ofJson?_eq_ok]
  constructor
  · rintro ⟨id, hid, name, hname, type, htype, others, hrest, heq⟩
    cases heq
    exact ⟨⟨name, id, type⟩, others, rfl, hid, hname, htype, hrest⟩
  · rintro ⟨c, others, rfl, hid, hname, htype, hrest⟩
    exact ⟨c.id, hid, c.name, hname, c.type, htype, others, hrest, rfl⟩

end Lists

/-! ## Reading is exact -/

mutual

/-- **A value is read as a descriptor exactly if it states the descriptor**, wherever it stands. -/
theorem ofJson_eq_ok_iff : ∀ {d : Desc} {v : Json} {location : Text},
    ofJson v location = .ok d ↔ d.Describes v
  | prim name, v, location => by
      rw [Describes]
      constructor
      · intro h
        obtain ⟨ms, rfl, htag, hname⟩ := content_of_ofJson h
        exact ⟨htag, hname⟩
      · rintro ⟨htag, hname⟩
        obtain ⟨ms, rfl⟩ := obj_of_get? htag
        exact ofJson_of_content htag hname
  | nat value, v, location => by
      rw [Describes]
      constructor
      · intro h
        obtain ⟨ms, rfl, htag, hvalue⟩ := content_of_ofJson h
        exact ⟨htag, hvalue⟩
      · rintro ⟨htag, hvalue⟩
        obtain ⟨ms, rfl⟩ := obj_of_get? htag
        exact ofJson_of_content htag hvalue
  | array elem len, v, location => by
      rw [Describes]
      constructor
      · intro h
        obtain ⟨ms, rfl, htag, ⟨w, hw, helem⟩, w', hw', hlen⟩ := content_of_ofJson h
        exact ⟨htag, ⟨w, hw, ofJson_eq_ok_iff.mp helem⟩, w', hw', ofJson_eq_ok_iff.mp hlen⟩
      · rintro ⟨htag, ⟨w, hw, helem⟩, w', hw', hlen⟩
        obtain ⟨ms, rfl⟩ := obj_of_get? htag
        exact ofJson_of_content htag
          ⟨⟨w, hw, ofJson_eq_ok_iff.mpr helem⟩, w', hw', ofJson_eq_ok_iff.mpr hlen⟩
  | struct fields, v, location => by
      rw [Describes]
      constructor
      · intro h
        obtain ⟨ms, rfl, htag, items, hitems, hfields⟩ := content_of_ofJson h
        exact ⟨htag, items, hitems, fieldsOfJson_eq_ok_iff.mp hfields⟩
      · rintro ⟨htag, items, hitems, hfields⟩
        obtain ⟨ms, rfl⟩ := obj_of_get? htag
        exact ofJson_of_content htag ⟨items, hitems, fieldsOfJson_eq_ok_iff.mpr hfields⟩
  | variant ctors, v, location => by
      rw [Describes]
      constructor
      · intro h
        obtain ⟨ms, rfl, htag, items, hitems, hctors⟩ := content_of_ofJson h
        exact ⟨htag, items, hitems, ctorsOfJson_eq_ok_iff.mp hctors⟩
      · rintro ⟨htag, items, hitems, hctors⟩
        obtain ⟨ms, rfl⟩ := obj_of_get? htag
        exact ofJson_of_content htag ⟨items, hitems, ctorsOfJson_eq_ok_iff.mpr hctors⟩

theorem fieldsOfJson_eq_ok_iff : ∀ {fields : List (Field Desc)} {items : List Json}
    {location : Text} {i : Nat},
    fieldsOfJson items location i = .ok fields ↔ DescribesFields fields items
  | [], items, location, i => by
      rw [DescribesFields]
      constructor
      · intro h
        rcases shape_of_fieldsOfJson h with ⟨rfl, -⟩ | ⟨ms, others, rfl⟩
        · rfl
        · obtain ⟨f, rest, hcons, -⟩ := fieldsOfJson_obj_eq_ok.mp h
          cases hcons
      · rintro rfl
        rw [fieldsOfJson]
  | f :: rest, items, location, i => by
      rw [DescribesFields]
      constructor
      · intro h
        rcases shape_of_fieldsOfJson h with ⟨-, hnil⟩ | ⟨ms, others, rfl⟩
        · cases hnil
        · obtain ⟨g, rest', hcons, hname, hoffset, ⟨w, hw, htype⟩, hrest⟩ :=
            fieldsOfJson_obj_eq_ok.mp h
          cases hcons
          exact ⟨_, others, rfl, hname, hoffset, ⟨w, hw, ofJson_eq_ok_iff.mp htype⟩,
            fieldsOfJson_eq_ok_iff.mp hrest⟩
      · rintro ⟨v, others, rfl, hname, hoffset, ⟨w, hw, htype⟩, hrest⟩
        obtain ⟨ms, rfl⟩ := obj_of_get? hname
        exact fieldsOfJson_obj_eq_ok.mpr ⟨f, rest, rfl, hname, hoffset,
          ⟨w, hw, ofJson_eq_ok_iff.mpr htype⟩, fieldsOfJson_eq_ok_iff.mpr hrest⟩

theorem ctorsOfJson_eq_ok_iff : ∀ {ctors : List (Ctor Desc)} {items : List Json}
    {location : Text} {i : Nat},
    ctorsOfJson items location i = .ok ctors ↔ DescribesCtors ctors items
  | [], items, location, i => by
      rw [DescribesCtors]
      constructor
      · intro h
        rcases shape_of_ctorsOfJson h with ⟨rfl, -⟩ | ⟨ms, others, rfl⟩
        · rfl
        · obtain ⟨c, rest, hcons, -⟩ := ctorsOfJson_obj_eq_ok.mp h
          cases hcons
      · rintro rfl
        rw [ctorsOfJson]
  | c :: rest, items, location, i => by
      rw [DescribesCtors]
      constructor
      · intro h
        rcases shape_of_ctorsOfJson h with ⟨-, hnil⟩ | ⟨ms, others, rfl⟩
        · cases hnil
        · obtain ⟨g, rest', hcons, hid, hname, ⟨w, hw, htype⟩, hrest⟩ :=
            ctorsOfJson_obj_eq_ok.mp h
          cases hcons
          exact ⟨_, others, rfl, hid, hname, ⟨w, hw, ofJson_eq_ok_iff.mp htype⟩,
            ctorsOfJson_eq_ok_iff.mp hrest⟩
      · rintro ⟨v, others, rfl, hid, hname, ⟨w, hw, htype⟩, hrest⟩
        obtain ⟨ms, rfl⟩ := obj_of_get? hname
        exact ctorsOfJson_obj_eq_ok.mpr ⟨c, rest, rfl, hid, hname,
          ⟨w, hw, ofJson_eq_ok_iff.mpr htype⟩, ctorsOfJson_eq_ok_iff.mpr hrest⟩

end

/-! ## What is stated is valid -/

mutual

theorem valid_of_describes : ∀ {d : Desc} {v : Json}, d.Describes v → d.Valid
  | prim name, _, _ => .prim name
  | nat value, v, h => by
      rw [Describes] at h
      obtain ⟨-, -, hvalue⟩ := h
      exact .nat hvalue
  | array elem len, v, h => by
      rw [Describes] at h
      obtain ⟨-, ⟨_, -, helem⟩, _, -, hlen⟩ := h
      exact .array (valid_of_describes helem) (valid_of_describes hlen)
  | struct fields, v, h => by
      rw [Describes] at h
      obtain ⟨-, _, -, hfields⟩ := h
      have hall := valid_of_describesFields hfields
      exact .struct (fun f hf => (hall f hf).1) fun f hf => (hall f hf).2
  | variant ctors, v, h => by
      rw [Describes] at h
      obtain ⟨-, _, -, hctors⟩ := h
      have hall := valid_of_describesCtors hctors
      exact .variant (fun c hc => (hall c hc).1) fun c hc => (hall c hc).2

theorem valid_of_describesFields : ∀ {fields : List (Field Desc)} {items : List Json},
    DescribesFields fields items → ∀ f ∈ fields, (∃ o, f.offset.Is o) ∧ f.type.Valid
  | [], _, _ => by simp
  | f :: rest, items, h => by
      rw [DescribesFields] at h
      obtain ⟨_, _, -, -, ⟨-, hoffset⟩, ⟨_, -, htype⟩, hrest⟩ := h
      exact List.forall_mem_cons.mpr
        ⟨⟨hoffset, valid_of_describes htype⟩, valid_of_describesFields hrest⟩

theorem valid_of_describesCtors : ∀ {ctors : List (Ctor Desc)} {items : List Json},
    DescribesCtors ctors items → ∀ c ∈ ctors, (∃ n, c.id.Is n ∧ n < twoPow 32) ∧ c.type.Valid
  | [], _, _ => by simp
  | c :: rest, items, h => by
      rw [DescribesCtors] at h
      obtain ⟨_, _, -, ⟨-, hid⟩, -, ⟨_, -, htype⟩, hrest⟩ := h
      exact List.forall_mem_cons.mpr ⟨⟨hid, valid_of_describes htype⟩, valid_of_describesCtors hrest⟩

end

/-- A document is accepted exactly if it is the JSON of a value that states the descriptor. -/
theorem decode_eq_ok_iff {document : Text} {d : Desc} :
    decode document = .ok d ↔ ∃ v, Json.parse? document = some v ∧ d.Describes v := by
  rw [decode]
  cases Json.parse? document with
  | none => simp
  | some v => simp [ofJson_eq_ok_iff]

/-- **Whatever a document states is valid.** -/
theorem valid_of_decode {document : Text} {d : Desc} (h : decode document = .ok d) : d.Valid := by
  obtain ⟨v, -, hdescribes⟩ := decode_eq_ok_iff.mp h
  exact valid_of_describes hdescribes

end Relayout.Desc

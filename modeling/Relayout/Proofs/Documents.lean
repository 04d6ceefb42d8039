import Relayout.Proofs.Canonical
import Relayout.Proofs.Described

/-!
# Documents and descriptors

A descriptor and its canonical document determine each other, and a document
determines a descriptor whatever its spelling: `Restates` relates JSON values that
differ in the order of their members, in members that the grammar does not name
and in members that later ones replace. Blanks and escapes are already gone when
a document has been read as a value.
-/

namespace Relayout

open Relayout.Num Relayout.Json

/-! ## Members by name -/

namespace Json

theorem lookup?_cons (n name : Text) (v : Json) (ms : Members) :
    lookup? n ((name, v) :: ms) = if name = n then some v else lookup? n ms := by
  rw [lookup?, List.find?_cons]
  by_cases h : name = n
  · simp [h]
  · simp [h, lookup?]

theorem lookup?_insertNew {n name : Text} {v : Json} {ms : Members}
    (h : ms.any (·.1 = name) = false) :
    lookup? n (insertNew name v ms) = if name = n then some v else lookup? n ms := by
  induction ms with
  | nil => rw [insertNew, lookup?_cons]
  | cons m rest ih =>
      obtain ⟨other, w⟩ := m
      simp only [List.any_cons, Bool.or_eq_false_iff, decide_eq_false_iff_not] at h
      rw [insertNew]
      split
      · rw [lookup?_cons]
      · rw [lookup?_cons, ih h.2, lookup?_cons]
        by_cases hn : name = n
        · rw [if_pos hn, if_neg (hn ▸ h.1), if_pos hn]
        · rw [if_neg hn, if_neg hn]

theorem lookup?_replaceOld {n name : Text} {v : Json} {ms : Members}
    (h : ms.any (·.1 = name) = true) :
    lookup? n (replaceOld name v ms) = if name = n then some v else lookup? n ms := by
  induction ms with
  | nil => cases h
  | cons m rest ih =>
      obtain ⟨other, w⟩ := m
      rw [replaceOld]
      split
      · rename_i hother
        subst hother
        rw [lookup?_cons, lookup?_cons]
        by_cases hn : other = n
        · rw [if_pos hn, if_pos hn]
        · rw [if_neg hn, if_neg hn, if_neg hn]
      · rename_i hother
        simp only [List.any_cons, decide_eq_false hother, Bool.false_or] at h
        rw [lookup?_cons, ih h, lookup?_cons]
        by_cases hn : name = n
        · rw [if_pos hn, if_neg (hn ▸ hother), if_pos hn]
        · rw [if_neg hn, if_neg hn]

/-- **Of several members of one name the last one counts**, wherever it stands. -/
theorem get?_ofMembers (name : Text) (ms : Members) :
    (ofMembers ms).get? name = lookup? name ms.reverse := by
  rw [ofMembers, get?]
  induction ms using List.reverseRecOn with
  | nil => rfl
  | append_singleton ms m ih =>
      obtain ⟨key, v⟩ := m
      rw [List.foldl_append, List.reverse_append, List.reverse_singleton, List.singleton_append,
        lookup?_cons, ← ih, List.foldl_cons, List.foldl_nil]
      show lookup? name (set _ key v) = _
      rw [set]
      split
      · rename_i hpresent
        exact lookup?_replaceOld hpresent
      · rename_i habsent
        exact lookup?_insertNew (Bool.eq_false_iff.mpr habsent)

/-- What may be found under a name in two values. -/
theorem exists_iff_of_rel {r : Json → Json → Prop} {a b : Option Json} {p q : Json → Prop}
    (h : Option.Rel r a b) (hr : ∀ v w, r v w → (p v ↔ q w)) :
    (∃ v, a = some v ∧ p v) ↔ ∃ w, b = some w ∧ q w := by
  cases h with
  | none => simp
  | some hvw => simp [hr _ _ hvw]

end Json

/-! ## Documents that state the same -/

namespace Desc

/-- The names of members that the grammar of descriptors knows. -/
def memberNames : List Text :=
  ["tag", "name", "value", "elem", "len", "fields", "offset", "type", "ctors", "id"].map Text.ofString

/-- Two values that state the same: an object may give its members in any order,
and members count only under the names of the grammar, the last of each name. -/
inductive Restates : Json → Json → Prop
  | refl (v : Json) : Restates v v
  | list {vs ws : List Json} (h : List.Forall₂ Restates vs ws) : Restates (.arr vs) (.arr ws)
  | object {ms ns : Members}
      (h : ∀ name ∈ memberNames,
        Option.Rel Restates (lookup? name ms.reverse) (lookup? name ns.reverse)) :
      Restates (ofMembers ms) (ofMembers ns)

theorem Restates.get? {v w : Json} (h : Restates v w) {name : Text} (hname : name ∈ memberNames) :
    Option.Rel Restates (v.get? name) (w.get? name) := by
  cases h with
  | refl =>
      cases v.get? name with
      | none => exact .none
      | some x => exact .some (.refl x)
  | list => exact .none
  | object h =>
      rw [get?_ofMembers, get?_ofMembers]
      exact h name hname

theorem Restates.str_iff {v w : Json} (h : Restates v w) (t : Text) : v = .str t ↔ w = .str t := by
  cases h with
  | refl => rfl
  | list h => simp
  | object h => simp [ofMembers]

theorem Restates.num_iff {v w : Json} (h : Restates v w) (x : Num) : v = .num x ↔ w = .num x := by
  cases h with
  | refl => rfl
  | list h => simp
  | object h => simp [ofMembers]

section Members

variable {v w : Json} {name : Text}

theorem Restates.get?_str (h : Restates v w) (hname : name ∈ memberNames) (t : Text) :
    v.get? name = some (.str t) ↔ w.get? name = some (.str t) := by
  have hiff := exists_iff_of_rel (h.get? hname) fun _ _ hxy => hxy.str_iff t
  simpa using hiff

theorem Restates.get?_num (h : Restates v w) (hname : name ∈ memberNames) (x : Num) :
    v.get? name = some (.num x) ↔ w.get? name = some (.num x) := by
  have hiff := exists_iff_of_rel (h.get? hname) fun _ _ hxy => hxy.num_iff x
  simpa using hiff

theorem Restates.get?_arr (h : Restates v w) (hname : name ∈ memberNames)
    {p : List Json → Prop} (hp : ∀ vs ws, List.Forall₂ Restates vs ws → (p vs ↔ p ws)) :
    (∃ vs, v.get? name = some (.arr vs) ∧ p vs) ↔ ∃ ws, w.get? name = some (.arr ws) ∧ p ws := by
  have harr : ∀ x y, Restates x y →
      ((∃ vs, x = .arr vs ∧ p vs) ↔ ∃ ws, y = .arr ws ∧ p ws) := by
    intro x y hxy
    cases hxy with
    | refl => rfl
    | list h => simp [hp _ _ h]
    | object h => simp [ofMembers]
  have hiff := exists_iff_of_rel (h.get? hname) harr
  constructor
  · rintro ⟨vs, hvs, hpvs⟩
    obtain ⟨y, hy, ws, rfl, hpws⟩ := hiff.mp ⟨_, hvs, vs, rfl, hpvs⟩
    exact ⟨ws, hy, hpws⟩
  · rintro ⟨ws, hws, hpws⟩
    obtain ⟨x, hx, vs, rfl, hpvs⟩ := hiff.mpr ⟨_, hws, ws, rfl, hpws⟩
    exact ⟨vs, hx, hpvs⟩

end Members

mutual

/-- Values that state the same state the same descriptors. -/
theorem Restates.describes : ∀ {d : Desc} {v w : Json}, Restates v w → (d.Describes v ↔ d.Describes w)
  | prim name, v, w, h => by
      rw [Describes, Describes, h.get?_str (by decide), h.get?_str (by decide)]
  | nat value, v, w, h => by
      rw [Describes, Describes, h.get?_str (by decide), h.get?_num (by decide)]
  | array elem len, v, w, h => by
      rw [Describes, Describes, h.get?_str (by decide),
        exists_iff_of_rel (h.get? (by decide)) fun _ _ hxy => Restates.describes hxy,
        exists_iff_of_rel (h.get? (by decide)) fun _ _ hxy => Restates.describes hxy]
  | struct fields, v, w, h => by
      rw [Describes, Describes, h.get?_str (by decide),
        h.get?_arr (by decide) fun _ _ hitems => Restates.describesFields hitems]
  | variant ctors, v, w, h => by
      rw [Describes, Describes, h.get?_str (by decide),
        h.get?_arr (by decide) fun _ _ hitems => Restates.describesCtors hitems]

theorem Restates.describesFields : ∀ {fields : List (Field Desc)} {vs ws : List Json},
    List.Forall₂ Restates vs ws → (DescribesFields fields vs ↔ DescribesFields fields ws)
  | [], _, _, .nil => Iff.rfl
  | [], _, _, .cons _ _ => by simp [DescribesFields]
  | _ :: _, _, _, .nil => by simp [DescribesFields]
  | f :: rest, _, _, .cons h hrest => by
      rw [describesFields_cons, describesFields_cons, h.get?_str (by decide), h.get?_num (by decide),
        exists_iff_of_rel (h.get? (by decide)) fun _ _ hxy => Restates.describes hxy,
        Restates.describesFields hrest]

theorem Restates.describesCtors : ∀ {ctors : List (Ctor Desc)} {vs ws : List Json},
    List.Forall₂ Restates vs ws → (DescribesCtors ctors vs ↔ DescribesCtors ctors ws)
  | [], _, _, .nil => Iff.rfl
  | [], _, _, .cons _ _ => by simp [DescribesCtors]
  | _ :: _, _, _, .nil => by simp [DescribesCtors]
  | c :: rest, _, _, .cons h hrest => by
      rw [describesCtors_cons, describesCtors_cons, h.get?_num (by decide), h.get?_str (by decide),
        exists_iff_of_rel (h.get? (by decide)) fun _ _ hxy => Restates.describes hxy,
        Restates.describesCtors hrest]

end

/-! ## A canonical document states its descriptor -/

mutual

theorem describes_toJson : ∀ {d : Desc}, d.Valid → d.Describes d.toJson
  | prim name, _ => by
      rw [Describes]
      exact ⟨rfl, rfl⟩
  | nat value, .nat hvalue => by
      rw [Describes]
      exact ⟨rfl, rfl, hvalue⟩
  | array elem len, .array helem hlen => by
      rw [Describes]
      exact ⟨rfl, ⟨_, rfl, describes_toJson helem⟩, _, rfl, describes_toJson hlen⟩
  | struct fields, .struct hoffsets hfields => by
      rw [Describes]
      exact ⟨rfl, _, rfl, describesFields_toJson hoffsets hfields⟩
  | variant ctors, .variant hids hctors => by
      rw [Describes]
      exact ⟨rfl, _, rfl, describesCtors_toJson hids hctors⟩

theorem describesFields_toJson : ∀ {fields : List (Field Desc)},
    (∀ f ∈ fields, ∃ o, f.offset.Is o) → (∀ f ∈ fields, f.type.Valid) →
      DescribesFields fields (fieldsToJson fields)
  | [], _, _ => rfl
  | f :: rest, hoffsets, hfields => by
      rw [fieldsToJson, describesFields_cons]
      obtain ⟨hoffset, hoffsets⟩ := List.forall_mem_cons.mp hoffsets
      obtain ⟨htype, hfields⟩ := List.forall_mem_cons.mp hfields
      exact ⟨rfl, ⟨rfl, hoffset⟩, ⟨_, rfl, describes_toJson htype⟩,
        describesFields_toJson hoffsets hfields⟩

theorem describesCtors_toJson : ∀ {ctors : List (Ctor Desc)},
    (∀ c ∈ ctors, ∃ n, c.id.Is n ∧ n < twoPow 32) → (∀ c ∈ ctors, c.type.Valid) →
      DescribesCtors ctors (ctorsToJson ctors)
  | [], _, _ => rfl
  | c :: rest, hids, hctors => by
      rw [ctorsToJson, describesCtors_cons]
      obtain ⟨hid, hids⟩ := List.forall_mem_cons.mp hids
      obtain ⟨htype, hctors⟩ := List.forall_mem_cons.mp hctors
      exact ⟨⟨rfl, hid⟩, rfl, ⟨_, rfl, describes_toJson htype⟩, describesCtors_toJson hids hctors⟩

end

/-! ## Round trips -/

mutual

theorem plain_plain : ∀ d : Desc, d.plain.plain = d.plain
  | prim name => by rw [plain, plain]
  | nat value => by rw [plain, plain, Num.plain_plain]
  | array elem len => by rw [plain, plain, plain_plain elem, plain_plain len]
  | struct fields => by rw [plain, plain, plainFields_plainFields fields]
  | variant ctors => by rw [plain, plain, plainCtors_plainCtors ctors]

theorem plainFields_plainFields : ∀ fields : List (Field Desc),
    plainFields (plainFields fields) = plainFields fields
  | [] => rfl
  | f :: rest => by
      rw [plainFields, plainFields, plainFields_plainFields rest, Num.plain_plain, plain_plain f.type]

theorem plainCtors_plainCtors : ∀ ctors : List (Ctor Desc),
    plainCtors (plainCtors ctors) = plainCtors ctors
  | [] => rfl
  | c :: rest => by
      rw [plainCtors, plainCtors, plainCtors_plainCtors rest, Num.plain_plain, plain_plain c.type]

end

mutual

theorem valid_plain : ∀ {d : Desc}, d.Valid → d.plain.Valid
  | prim name, _ => by
      rw [plain]
      exact .prim name
  | nat value, .nat ⟨n, hn⟩ => by
      rw [plain]
      exact .nat ⟨n, plain_is.mpr hn⟩
  | array elem len, .array helem hlen => by
      rw [plain]
      exact .array (valid_plain helem) (valid_plain hlen)
  | struct fields, .struct hoffsets hfields => by
      rw [plain]
      have hall := valid_plainFields hoffsets hfields
      exact .struct (fun f hf => (hall f hf).1) fun f hf => (hall f hf).2
  | variant ctors, .variant hids hctors => by
      rw [plain]
      have hall := valid_plainCtors hids hctors
      exact .variant (fun c hc => (hall c hc).1) fun c hc => (hall c hc).2

theorem valid_plainFields : ∀ {fields : List (Field Desc)},
    (∀ f ∈ fields, ∃ o, f.offset.Is o) → (∀ f ∈ fields, f.type.Valid) →
      ∀ f ∈ plainFields fields, (∃ o, f.offset.Is o) ∧ f.type.Valid
  | [], _, _ => by simp [plainFields]
  | f :: rest, hoffsets, hfields => by
      obtain ⟨⟨o, ho⟩, hoffsets⟩ := List.forall_mem_cons.mp hoffsets
      obtain ⟨htype, hfields⟩ := List.forall_mem_cons.mp hfields
      rw [plainFields]
      exact List.forall_mem_cons.mpr
        ⟨⟨⟨o, plain_is.mpr ho⟩, valid_plain htype⟩, valid_plainFields hoffsets hfields⟩

theorem valid_plainCtors : ∀ {ctors : List (Ctor Desc)},
    (∀ c ∈ ctors, ∃ n, c.id.Is n ∧ n < twoPow 32) → (∀ c ∈ ctors, c.type.Valid) →
      ∀ c ∈ plainCtors ctors, (∃ n, c.id.Is n ∧ n < twoPow 32) ∧ c.type.Valid
  | [], _, _ => by simp [plainCtors]
  | c :: rest, hids, hctors => by
      obtain ⟨⟨n, hn, hlt⟩, hids⟩ := List.forall_mem_cons.mp hids
      obtain ⟨htype, hctors⟩ := List.forall_mem_cons.mp hctors
      rw [plainCtors]
      exact List.forall_mem_cons.mpr
        ⟨⟨⟨n, plain_is.mpr hn, hlt⟩, valid_plain htype⟩, valid_plainCtors hids hctors⟩

end

/-- The canonical document of a valid descriptor with finite numbers is accepted,
and states the descriptor without the signs of its zeros. -/
theorem decode_encode {d : Desc} (valid : d.Valid) (finite : d.Finite) :
    decode d.encode = .ok d.plain :=
  decode_eq_ok_iff.mpr ⟨_, parse?_encode finite, describes_toJson (valid_plain valid)⟩

/-- Lengths, offsets and tags are natural numbers within the limit of exactness,
the tags of at most 32 bits. -/
def Exact (d : Desc) : Prop :=
  d.Valid ∧ d.Each fun x => ∃ n, x.Is n ∧ n < exactLimit

theorem Exact.finite {d : Desc} (h : d.Exact) : d.Finite :=
  Each.mono (fun _ ⟨_, hx, hn⟩ => finite_of_is hx hn.le) h.2

theorem alike_plain (d : Desc) : d.plain.Alike d :=
  plain_plain d

theorem Restates.decode {t t' : Text} {v v' : Json} (h : Restates v v') (ht : Document t v)
    (ht' : Document t' v') (d : Desc) : Desc.decode t = .ok d ↔ Desc.decode t' = .ok d := by
  have hread : parse? t = some v := parse?_eq_some_iff.mpr ht
  have hread' : parse? t' = some v' := parse?_eq_some_iff.mpr ht'
  rw [decode_eq_ok_iff, decode_eq_ok_iff, hread, hread']
  simp [h.describes]

/-! ## A sample -/

namespace Sample

/-- A flag, a pair of short numbers and a mark of one kind. -/
def record : Desc :=
  .struct [⟨"flag", 0, .prim "byte"⟩, ⟨"pair", 2, .array (.prim "short") (.nat 2)⟩,
    ⟨"mark", 8, .variant [⟨"set", 1, .prim "unit"⟩]⟩]

theorem exact_literal (n : Nat) (h : n < exactLimit) : ∃ m, (ofNat n).Is m ∧ m < exactLimit :=
  ⟨n, is_ofNat h.le, h⟩

theorem plain_literal (n : Nat) (h : n < exactLimit) : (ofNat n).plain = ofNat n := by
  rw [ofNat_eq_rat h.le]
  rfl

theorem record_exact : record.Exact := by
  have hpair : (array (prim "short") (nat 2)).Valid :=
    .array (.prim _) (.nat ⟨2, is_ofNat (by decide)⟩)
  have hmark : (variant [⟨"set", 1, prim "unit"⟩]).Valid :=
    .variant (by simpa using ⟨1, is_ofNat (by decide), by decide⟩) (by simpa using .prim _)
  refine ⟨.struct ?_ ?_, ?_⟩
  · simpa using ⟨⟨0, is_ofNat (by decide)⟩, ⟨2, is_ofNat (by decide)⟩, ⟨8, is_ofNat (by decide)⟩⟩
  · simpa using ⟨.prim _, hpair, hmark⟩
  · exact ⟨exact_literal 0 (by decide), trivial, exact_literal 2 (by decide),
      ⟨trivial, exact_literal 2 (by decide)⟩, exact_literal 8 (by decide),
      ⟨exact_literal 1 (by decide), trivial, trivial⟩, trivial⟩

theorem record_plain : record.plain = record := by
  have hzero : (0 : Num).plain = 0 := plain_literal 0 (by decide)
  have hone : (1 : Num).plain = 1 := plain_literal 1 (by decide)
  have htwo : (2 : Num).plain = 2 := plain_literal 2 (by decide)
  have height : (8 : Num).plain = 8 := plain_literal 8 (by decide)
  simp only [record, plain, plainFields, plainCtors, hzero, hone, htwo, height]

theorem record_decoded : decode record.encode = .ok record := by
  rw [decode_encode record_exact.1 record_exact.finite, record_plain]

/-- A document with blanks and escapes, in an order of its own, that says more than it needs to. -/
def spelling : Text :=
  " \x7b \"name\" : \"int\" , \"n\\u006fte\":[null,true], \"t\\u0061g\":\"prim\" \x7d"

/-- The value that it spells. -/
def spelled : Json :=
  ofMembers [("name", .str "int"), ("note", .arr [.null, .bool true]), ("tag", .str "prim")]

theorem spelling_spelled : Document spelling spelled :=
  parse?_eq_some_iff.mp (by cbv)

theorem restates_spelled : Restates (prim "int").toJson spelled := by
  have hmembers : (prim "int").toJson = ofMembers [("name", .str "int"), ("tag", .str "prim")] := by cbv
  rw [hmembers]
  refine .object ?_
  have hsame : ∀ name ∈ memberNames,
      lookup? name ([("name", .str "int"), ("tag", .str "prim")] : Members).reverse =
        lookup? name ([("name", .str "int"), ("note", .arr [.null, .bool true]), ("tag", .str "prim")] :
          Members).reverse := by
    intro name hname
    have hother : Text.ofString "note" ≠ name := by
      rintro rfl
      exact absurd hname (by decide)
    simp only [List.reverse_cons, List.reverse_nil, List.nil_append, List.cons_append, lookup?_cons]
    rw [if_neg (show ¬("note" : Text) = name from hother)]
  intro name hname
  rw [hsame name hname]
  cases lookup? name _ with
  | none => exact .none
  | some v => exact .some (.refl v)

end Sample

/-! ## The main result -/

/-- **Documents and descriptors determine each other.** The canonical document of
a descriptor is accepted and gives it back. What any accepted document gives has
a canonical document that gives the same again and is its own canonical document.
Two accepted documents have one canonical document exactly if they give the same
descriptor, as they do whenever they are spellings of values that state the same;
and whatever is accepted spells a JSON value that states the descriptor. -/
theorem documents_canonical :
    (∀ d : Desc, d.Exact → ∃ d', decode d.encode = .ok d' ∧ d'.Alike d) ∧
    (∀ t d, decode t = .ok d → d.Exact →
      ∃ d', decode d.encode = .ok d' ∧ d'.Alike d ∧ d'.encode = d.encode) ∧
    (∀ t t' d d', decode t = .ok d → decode t' = .ok d' → d.Exact → d'.Exact →
      (d.encode = d'.encode ↔ d.Alike d')) ∧
    (∀ t t' v v', Document t v → Document t' v' → Restates v v' →
      ∀ d, decode t = .ok d ↔ decode t' = .ok d) ∧
    (∀ t d, decode t = .ok d ↔ ∃ v, Document t v ∧ d.Describes v) := by
  refine ⟨?_, ?_, ?_, ?_, ?_⟩
  · intro d exact
    exact ⟨d.plain, decode_encode exact.1 exact.finite, alike_plain d⟩
  · intro t d _ exact
    exact ⟨d.plain, decode_encode exact.1 exact.finite, alike_plain d, encode_plain d⟩
  · intro t t' d d' _ _ exact exact'
    exact encode_eq_iff exact.finite exact'.finite
  · intro t t' v v' ht ht' hstates d
    exact hstates.decode ht ht' d
  · intro t d
    rw [decode_eq_ok_iff]
    simp only [parse?_eq_some_iff]

/-- A record and a primitive; the primitive has a document of its own spelling. -/
theorem documents_canonical_sample :
    (∃ d, decode Sample.record.encode = .ok d ∧ d.Alike Sample.record) ∧
    (∃ d, decode Sample.record.encode = .ok d ∧ d.Alike Sample.record ∧
      d.encode = Sample.record.encode) ∧
    (Sample.record.encode = (prim "int").encode ↔ Sample.record.Alike (prim "int")) ∧
    decode Sample.spelling = .ok (prim "int") ∧
    ∃ v, Document Sample.spelling v ∧ (prim "int").Describes v := by
  obtain ⟨hgives, hagain, hsame, hstates, hdescribes⟩ := documents_canonical
  have exact : (prim "int").Exact := ⟨.prim _, trivial⟩
  have hcanonical : Document (prim "int").encode (prim "int").toJson :=
    parse?_eq_some_iff.mp (parse?_encode exact.finite)
  have hspelling : decode Sample.spelling = .ok (prim "int") :=
    (hstates _ _ _ _ hcanonical Sample.spelling_spelled Sample.restates_spelled _).mp
      (decode_encode exact.1 exact.finite)
  exact ⟨hgives _ Sample.record_exact, hagain _ _ Sample.record_decoded Sample.record_exact,
    hsame _ _ _ _ Sample.record_decoded hspelling Sample.record_exact exact, hspelling,
    (hdescribes _ _).mp hspelling⟩

end Desc

end Relayout

import Relayout.Desc.Codec
import Relayout.Proofs.Notation
import Relayout.Proofs.Printing

/-!
# Canonical documents

The canonical document of a descriptor with finite numbers spells its JSON value,
up to the signs of zeros. So two descriptors have one document exactly if they are
alike, whatever their names and numbers (`encode_eq_iff`).
-/

namespace Relayout

/-! ## The sign of zero -/

namespace Num

theorem value?_plain (x : Num) : x.plain.value? = x.value? := by
  cases x <;> rfl

theorem plain_is {x : Num} {n : Nat} : x.plain.Is n ↔ x.Is n := by
  rw [Is, Is, value?_plain]

theorem plain_plain (x : Num) : x.plain.plain = x.plain := by
  cases x <;> rfl

/-- A natural number within the limit of exactness is a finite double. -/
theorem finite_of_is {x : Num} {n : Nat} (h : x.Is n) (hn : n ≤ exactLimit) : x.Finite := by
  rcases h.cases with rfl | ⟨rfl, -⟩
  · exact ofNat_eq_rat hn
  · trivial

end Num

/-- A finite double is printed as a numeral that denotes it, but for the sign of zero. -/
theorem Json.spells_num {x : Num} (h : x.Finite) :
    Spells (.value (.num x.plain)) (print (.num x)) := by
  have hprint : print (.num x) = x.toText := by
    cases x with
    | nan => exact h.elim
    | infinite negative => exact h.elim
    | negZero => rfl
    | rat q => rfl
  exact hprint ▸ Spells.num (Num.numeral_toText h)

theorem Json.print_num_plain (x : Num) : print (.num x.plain) = print (.num x) := by
  cases x with
  | negZero => rfl
  | _ => rfl

namespace Desc

open Relayout.Num Relayout.Json

mutual

/-- The descriptor without the signs of its zeros. -/
def plain : Desc → Desc
  | prim name => prim name
  | nat value => nat value.plain
  | array elem len => array (plain elem) (plain len)
  | struct fields => struct (plainFields fields)
  | variant ctors => variant (plainCtors ctors)

def plainFields : List (Field Desc) → List (Field Desc)
  | [] => []
  | f :: rest => ⟨f.name, f.offset.plain, plain f.type⟩ :: plainFields rest

/-- The constructors without the signs of their zeros. -/
def plainCtors : List (Ctor Desc) → List (Ctor Desc)
  | [] => []
  | c :: rest => ⟨c.name, c.id.plain, plain c.type⟩ :: plainCtors rest

end

/-- Structurally equal: the same tree with the same names and the same numbers. -/
def Alike (d d' : Desc) : Prop :=
  d.plain = d'.plain

section Numbers

variable (p : Num → Prop)

mutual

/-- Every number of the descriptor has a property: the lengths, offsets and tags. -/
def Each : Desc → Prop
  | prim _ => True
  | nat value => p value
  | array elem len => Each elem ∧ Each len
  | struct fields => EachField fields
  | variant ctors => EachCtor ctors

/-- Every number of the fields has the property. -/
def EachField : List (Field Desc) → Prop
  | [] => True
  | f :: rest => p f.offset ∧ Each f.type ∧ EachField rest

/-- Every number of the constructors has the property. -/
def EachCtor : List (Ctor Desc) → Prop
  | [] => True
  | c :: rest => p c.id ∧ Each c.type ∧ EachCtor rest

end

variable {p} {q : Num → Prop} (h : ∀ x, p x → q x)

include h

mutual

theorem Each.mono : ∀ {d : Desc}, d.Each p → d.Each q
  | prim _, _ => trivial
  | nat value, hd => h value hd
  | array _ _, hd => ⟨Each.mono hd.1, Each.mono hd.2⟩
  | struct _, hd => EachField.mono hd
  | variant _, hd => EachCtor.mono hd

theorem EachField.mono : ∀ {fields : List (Field Desc)}, EachField p fields → EachField q fields
  | [], _ => trivial
  | f :: _, hd => ⟨h f.offset hd.1, Each.mono hd.2.1, EachField.mono hd.2.2⟩

theorem EachCtor.mono : ∀ {ctors : List (Ctor Desc)}, EachCtor p ctors → EachCtor q ctors
  | [], _ => trivial
  | c :: _, hd => ⟨h c.id hd.1, Each.mono hd.2.1, EachCtor.mono hd.2.2⟩

end

end Numbers

/-- All lengths, offsets and tags are finite doubles. -/
def Finite (d : Desc) : Prop :=
  d.Each Num.Finite

/-! ## The canonical document -/

mutual

/-- The canonical document spells the JSON value of the descriptor. -/
theorem spells_toJson : ∀ {d : Desc}, d.Each Num.Finite →
    Spells (.value d.plain.toJson) d.toJson.print
  | prim name, _ => by
      rw [plain, toJson]
      exact spells_obj (.cons (spellsMember (spells_str _)) (.cons (spellsMember (spells_str _)) .nil)) rfl
  | nat value, h => by
      rw [plain, toJson, toJson]
      exact spells_obj (.cons (spellsMember (spells_str _))
        (.cons (spellsMember (spells_num h)) .nil)) rfl
  | array elem len, h => by
      rw [plain, toJson, toJson]
      exact spells_obj (.cons (spellsMember (spells_toJson h.1)) (.cons (spellsMember (spells_toJson h.2))
        (.cons (spellsMember (spells_str _)) .nil))) rfl
  | struct fields, h => by
      rw [plain, toJson, toJson]
      exact spells_obj (.cons (spellsMember (spells_arr (spells_fieldsToJson h)))
        (.cons (spellsMember (spells_str _)) .nil)) rfl
  | variant ctors, h => by
      rw [plain, toJson, toJson]
      exact spells_obj (.cons (spellsMember (spells_arr (spells_ctorsToJson h)))
        (.cons (spellsMember (spells_str _)) .nil)) rfl

theorem spells_fieldsToJson : ∀ {fields : List (Field Desc)}, EachField Num.Finite fields →
    List.Forall₂ (fun v w => Spells (.value w) v.print) (fieldsToJson fields)
      (fieldsToJson (plainFields fields))
  | [], _ => .nil
  | f :: rest, ⟨hoffset, htype, hrest⟩ => by
      rw [plainFields, fieldsToJson, fieldsToJson]
      exact .cons (spells_obj (.cons (spellsMember (spells_str _))
        (.cons (spellsMember (spells_num hoffset)) (.cons (spellsMember (spells_toJson htype)) .nil))) rfl)
        (spells_fieldsToJson hrest)

theorem spells_ctorsToJson : ∀ {ctors : List (Ctor Desc)}, EachCtor Num.Finite ctors →
    List.Forall₂ (fun v w => Spells (.value w) v.print) (ctorsToJson ctors)
      (ctorsToJson (plainCtors ctors))
  | [], _ => .nil
  | c :: rest, ⟨hid, htype, hrest⟩ => by
      rw [plainCtors, ctorsToJson, ctorsToJson]
      exact .cons (spells_obj (.cons (spellsMember (spells_num hid))
        (.cons (spellsMember (spells_str _)) (.cons (spellsMember (spells_toJson htype)) .nil))) rfl)
        (spells_ctorsToJson hrest)

end

/-- The canonical document is read as the JSON value of the descriptor. -/
theorem parse?_encode {d : Desc} (h : d.Finite) : parse? d.encode = some d.plain.toJson :=
  parse?_eq_some_iff.mpr ⟨d.encode, [], (List.append_nil _).symm, spells_toJson h, blank_nil⟩

mutual

/-- The document does not show the signs of zeros. -/
theorem print_plain : ∀ d : Desc, d.plain.toJson.print = d.toJson.print
  | prim name => by rw [plain]
  | nat value => by
      rw [plain, toJson, toJson]
      exact print_obj_congr (.cons ⟨rfl, rfl⟩ (.cons ⟨rfl, print_num_plain value⟩ .nil))
  | array elem len => by
      rw [plain, toJson, toJson]
      exact print_obj_congr (.cons ⟨rfl, print_plain elem⟩ (.cons ⟨rfl, print_plain len⟩
        (.cons ⟨rfl, rfl⟩ .nil)))
  | struct fields => by
      rw [plain, toJson, toJson]
      exact print_obj_congr (.cons ⟨rfl, print_arr_congr (print_plainFields fields)⟩
        (.cons ⟨rfl, rfl⟩ .nil))
  | variant ctors => by
      rw [plain, toJson, toJson]
      exact print_obj_congr (.cons ⟨rfl, print_arr_congr (print_plainCtors ctors)⟩
        (.cons ⟨rfl, rfl⟩ .nil))

theorem print_plainFields : ∀ fields : List (Field Desc),
    List.Forall₂ (fun v w => v.print = w.print) (fieldsToJson (plainFields fields))
      (fieldsToJson fields)
  | [] => .nil
  | f :: rest => by
      rw [plainFields, fieldsToJson, fieldsToJson]
      exact .cons (print_obj_congr (.cons ⟨rfl, rfl⟩ (.cons ⟨rfl, print_num_plain f.offset⟩
        (.cons ⟨rfl, print_plain f.type⟩ .nil)))) (print_plainFields rest)

theorem print_plainCtors : ∀ ctors : List (Ctor Desc),
    List.Forall₂ (fun v w => v.print = w.print) (ctorsToJson (plainCtors ctors)) (ctorsToJson ctors)
  | [] => .nil
  | c :: rest => by
      rw [plainCtors, ctorsToJson, ctorsToJson]
      exact .cons (print_obj_congr (.cons ⟨rfl, print_num_plain c.id⟩ (.cons ⟨rfl, rfl⟩
        (.cons ⟨rfl, print_plain c.type⟩ .nil)))) (print_plainCtors rest)

end

theorem encode_plain (d : Desc) : d.plain.encode = d.encode :=
  print_plain d

/-! ## Different descriptors have different values -/

/-- Nodes of different kinds have different values. -/
theorem toJson_ne {d d' : Desc} (h : decide (d.tag = d'.tag) = false) : d.toJson ≠ d'.toJson := by
  have htag : ∀ d : Desc, d.toJson.get? "tag" = some (.str d.tag) := by
    intro d
    cases d <;> rfl
  intro heq
  have hget := htag d
  rw [heq, htag d'] at hget
  exact of_decide_eq_false h (Json.str.inj (Option.some.inj hget)).symm

mutual

theorem toJson_injective : ∀ {d d' : Desc}, d.toJson = d'.toJson → d = d'
  | prim name, d', h => by
      cases d' with
      | prim name' =>
          simp only [toJson, Json.obj.injEq, List.cons.injEq, Prod.mk.injEq, Json.str.injEq, true_and,
            and_true] at h
          rw [h]
      | _ => exact absurd h (toJson_ne rfl)
  | nat value, d', h => by
      cases d' with
      | nat value' =>
          simp only [toJson, Json.obj.injEq, List.cons.injEq, Prod.mk.injEq, Json.num.injEq, true_and,
            and_true] at h
          rw [h]
      | _ => exact absurd h (toJson_ne rfl)
  | array elem len, d', h => by
      cases d' with
      | array elem' len' =>
          simp only [toJson, Json.obj.injEq, List.cons.injEq, Prod.mk.injEq, true_and, and_true] at h
          rw [toJson_injective h.1, toJson_injective h.2]
      | _ => exact absurd h (toJson_ne rfl)
  | struct fields, d', h => by
      cases d' with
      | struct fields' =>
          simp only [toJson, Json.obj.injEq, List.cons.injEq, Prod.mk.injEq, Json.arr.injEq, true_and,
            and_true] at h
          rw [fieldsToJson_injective h]
      | _ => exact absurd h (toJson_ne rfl)
  | variant ctors, d', h => by
      cases d' with
      | variant ctors' =>
          simp only [toJson, Json.obj.injEq, List.cons.injEq, Prod.mk.injEq, Json.arr.injEq, true_and,
            and_true] at h
          rw [ctorsToJson_injective h]
      | _ => exact absurd h (toJson_ne rfl)

theorem fieldsToJson_injective : ∀ {fields fields' : List (Field Desc)},
    fieldsToJson fields = fieldsToJson fields' → fields = fields'
  | [], [], _ => rfl
  | [], _ :: _, h => by simp [fieldsToJson] at h
  | _ :: _, [], h => by simp [fieldsToJson] at h
  | ⟨name, offset, type⟩ :: rest, ⟨name', offset', type'⟩ :: rest', h => by
      simp only [fieldsToJson, List.cons.injEq, Json.obj.injEq, Prod.mk.injEq, Json.str.injEq,
        Json.num.injEq, true_and, and_true] at h
      obtain ⟨⟨hname, hoffset, htype⟩, hrest⟩ := h
      rw [hname, hoffset, toJson_injective htype, fieldsToJson_injective hrest]

theorem ctorsToJson_injective : ∀ {ctors ctors' : List (Ctor Desc)},
    ctorsToJson ctors = ctorsToJson ctors' → ctors = ctors'
  | [], [], _ => rfl
  | [], _ :: _, h => by simp [ctorsToJson] at h
  | _ :: _, [], h => by simp [ctorsToJson] at h
  | ⟨name, id, type⟩ :: rest, ⟨name', id', type'⟩ :: rest', h => by
      simp only [ctorsToJson, List.cons.injEq, Json.obj.injEq, Prod.mk.injEq, Json.str.injEq,
        Json.num.injEq, true_and, and_true] at h
      obtain ⟨⟨hid, hname, htype⟩, hrest⟩ := h
      rw [hid, hname, toJson_injective htype, ctorsToJson_injective hrest]

end

/-- **Descriptors with finite numbers have one document exactly if they are alike.** -/
theorem encode_eq_iff {d d' : Desc} (h : d.Finite) (h' : d'.Finite) :
    d.encode = d'.encode ↔ d.Alike d' := by
  constructor
  · intro heq
    have hparse := parse?_encode h
    rw [heq, parse?_encode h'] at hparse
    exact (toJson_injective (Option.some.inj hparse)).symm
  · intro halike
    rw [← encode_plain d, ← encode_plain d', halike]

end Desc

end Relayout

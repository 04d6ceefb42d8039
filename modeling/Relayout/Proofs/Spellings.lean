import Relayout.Proofs.Precedence

/-!
# The two spellings of a setting

An object may name a setting in either of two spellings, and it is meant not to
matter in which. Reading picks the value under the first spelling unless there
is none or it is null, and else whatever is under the second one
(`Config.pick`). So the spellings differ for null and for nothing else: under
the first one it says nothing, and the default holds; under the second one it is
read and refused, because it is neither a truth value nor a policy.
-/

namespace Relayout

open Json (lookup? Members)

namespace Setting

/-- All settings, in the order in which they are read. -/
def all : List Setting :=
  [littleEndian, boundsCheck, unknownTag]

def before : Setting → List Setting
  | littleEndian => []
  | boundsCheck => [littleEndian]
  | unknownTag => [littleEndian, boundsCheck]

def ofSpelling? (name : Text) : Option Setting :=
  all.find? fun x => name = x.camel ∨ name = x.snake

theorem ofSpelling?_camel (x : Setting) : ofSpelling? x.camel = some x := by
  cases x <;> decide

theorem ofSpelling?_snake (x : Setting) : ofSpelling? x.snake = some x := by
  cases x <;> decide

theorem snake_ne_camel (x : Setting) : x.snake ≠ x.camel := by
  cases x <;> decide

/-- No two settings share a spelling. -/
theorem ofSpelling?_ne {x y : Setting} (h : y ≠ x) {name : Text} (hy : ofSpelling? name = some y) :
    name ≠ x.camel := by
  rintro rfl
  rw [ofSpelling?_camel] at hy
  exact h (Option.some.inj hy).symm

theorem eq_of_ofSpelling? {name : Text} {x : Setting} (h : ofSpelling? name = some x) :
    name = x.camel ∨ name = x.snake := by
  simpa using List.find?_some h

/-- The value of the setting in either spelling. -/
def value? (x : Setting) (members : Members) : Option Json :=
  (lookup? x.camel members).or (lookup? x.snake members)

end Setting

namespace Config

/-! ## Replacing spellings -/

/-- A name with the spellings of the chosen settings exchanged. -/
def respelled (chosen : Setting → Bool) (name : Text) : Text :=
  match Setting.ofSpelling? name with
  | some x => if chosen x then if name = x.camel then x.snake else x.camel else name
  | none => name

/-- Replace the spellings of the chosen settings by their other ones. -/
def respell (chosen : Setting → Bool) (members : Members) : Members :=
  members.map fun (name, value) => (respelled chosen name, value)

section

variable (chosen : Setting → Bool) (x : Setting)

theorem respelled_camel :
    respelled chosen x.camel = if chosen x then x.snake else x.camel := by
  rw [respelled, x.ofSpelling?_camel]
  simp

theorem respelled_snake :
    respelled chosen x.snake = if chosen x then x.camel else x.snake := by
  rw [respelled, x.ofSpelling?_snake]
  simp [x.snake_ne_camel]

theorem respelled_respelled (name : Text) : respelled chosen (respelled chosen name) = name := by
  cases h : Setting.ofSpelling? name with
  | none =>
      have hsame : respelled chosen name = name := by rw [respelled, h]
      rw [hsame, hsame]
  | some x =>
      rcases Setting.eq_of_ofSpelling? h with rfl | rfl
      · rw [respelled_camel]
        split
        · rename_i hchosen
          rw [respelled_snake, if_pos hchosen]
        · rename_i hchosen
          rw [respelled_camel, if_neg hchosen]
      · rw [respelled_snake]
        split
        · rename_i hchosen
          rw [respelled_camel, if_pos hchosen]
        · rename_i hchosen
          rw [respelled_snake, if_neg hchosen]

/-- A value is found under the name that its name has become. -/
theorem lookup?_respell (members : Members) (name : Text) :
    lookup? name (respell chosen members) = lookup? (respelled chosen name) members := by
  have hsame (other : Text) :
      (respelled chosen other = name) = (other = respelled chosen name) := by
    refine propext ⟨fun h => ?_, fun h => ?_⟩
    · rw [← h, respelled_respelled]
    · rw [h, respelled_respelled]
  rw [lookup?, lookup?, respell, List.find?_map, Option.map_map]
  simp only [Function.comp_def, hsame]

end

/-- No setting is named in both spellings. -/
def Single (members : Members) : Prop :=
  ∀ x : Setting, lookup? x.camel members = none ∨ lookup? x.snake members = none

/-! ## What reading depends on -/

/-- The value that is read for a setting. -/
def picked (members : Members) (x : Setting) : Option Json :=
  pick members x.camel x.snake

theorem fromMembers_congr {members others : Members}
    (h : ∀ x, picked members x = picked others x) : fromMembers members = fromMembers others := by
  have hlittle := h .littleEndian
  have hbounds := h .boundsCheck
  have hpolicy := h .unknownTag
  simp only [picked, Setting.camel, Setting.snake] at hlittle hbounds hpolicy
  rw [fromMembers, fromMembers, hlittle, hbounds, hpolicy]

/-- The first spelling wins unless it states nothing. -/
theorem picked_eq (members : Members) (x : Setting) :
    picked members x = (Json.stated (lookup? x.camel members)).or (lookup? x.snake members) := by
  rw [picked, pick]
  cases Json.stated (lookup? x.camel members) <;> rfl

theorem stated_of_ne_null {v : Option Json} (h : v ≠ some .null) : Json.stated v = v := by
  unfold Json.stated
  split
  · exact absurd rfl h
  · rfl

/-- A value other than null is read under either spelling. -/
theorem picked_of_ne_null {members : Members} {x : Setting}
    (h : x.value? members ≠ some .null) : picked members x = x.value? members := by
  rw [picked_eq, Setting.value?]
  cases hcamel : lookup? x.camel members with
  | none => rfl
  | some v =>
      have hv : some v ≠ some Json.null := by
        rintro hv
        rw [Setting.value?, hcamel, Option.some_or] at h
        exact h hv
      rw [stated_of_ne_null hv]

theorem value?_respell {members : Members} (single : Single members) (chosen : Setting → Bool)
    (x : Setting) : x.value? (respell chosen members) = x.value? members := by
  rw [Setting.value?, Setting.value?, lookup?_respell, lookup?_respell, respelled_camel,
    respelled_snake]
  split
  · rcases single x with h | h <;> simp [h]
  · rfl

/-! ## Refusals -/

/-- Why the value that is read for a setting is refused. -/
def complaint? (members : Members) (x : Setting) : Option Fault :=
  match x with
  | .littleEndian => error? (readBool (picked members x) default.littleEndian)
  | .boundsCheck => error? (readBool (picked members x) default.boundsCheck)
  | .unknownTag => error? (parsePolicy (picked members x) default.unknownTag)

/-- Why null is refused. -/
def nullComplaint : Setting → Fault
  | .unknownTag =>
    refusal ("unknownTag must be one of " ++ UnknownTagPolicy.names ++ ", got 'null'")
  | _ => refusal "expected a boolean, got null"

/-- Why an object in which the setting is read as null is refused: a setting that
is read before may have been refused already. -/
def nullRefusal (members : Members) (x : Setting) : Fault :=
  (x.before.findSome? (complaint? members)).getD (nullComplaint x)

/-- An object is refused for the first of its settings that is. -/
theorem fromMembers_error {members : Members} {fault : Fault}
    (h : Setting.all.findSome? (complaint? members) = some fault) :
    fromMembers members = .error fault := by
  rw [fromMembers]
  show (readBool (picked members .littleEndian) default.littleEndian >>= fun _ => _) = _
  simp only [Setting.all, List.findSome?_cons, List.findSome?_nil, complaint?] at h
  cases hlittle : readBool (picked members .littleEndian) default.littleEndian with
  | error c =>
      rw [hlittle] at h
      cases h
      rfl
  | ok littleEndian =>
      rw [hlittle] at h
      show (readBool (picked members .boundsCheck) default.boundsCheck >>= fun _ => _) = _
      cases hbounds : readBool (picked members .boundsCheck) default.boundsCheck with
      | error c =>
          rw [hbounds] at h
          cases h
          rfl
      | ok boundsCheck =>
          rw [hbounds] at h
          show (parsePolicy (picked members .unknownTag) default.unknownTag >>= fun _ => _) = _
          cases hpolicy : parsePolicy (picked members .unknownTag) default.unknownTag with
          | error c =>
              rw [hpolicy] at h
              cases h
              rfl
          | ok policy =>
              rw [hpolicy] at h
              cases h

theorem complaint?_null {members : Members} {x : Setting} (h : picked members x = some .null) :
    complaint? members x = some (nullComplaint x) := by
  cases x <;> rw [complaint?, h] <;> rfl

/-- **A setting that is read as null is refused.** -/
theorem fromMembers_null {members : Members} {x : Setting} (h : picked members x = some .null) :
    fromMembers members = .error (nullRefusal members x) := by
  have hcomplaint := complaint?_null h
  have hfirst (rest : List Setting) : (x.before ++ x :: rest).findSome? (complaint? members) =
      some (nullRefusal members x) := by
    rw [List.findSome?_append, List.findSome?_cons, hcomplaint, nullRefusal]
    cases x.before.findSome? (complaint? members) <;> rfl
  cases x with
  | littleEndian => exact fromMembers_error (hfirst [.boundsCheck, .unknownTag])
  | boundsCheck => exact fromMembers_error (hfirst [.unknownTag])
  | unknownTag => exact fromMembers_error (hfirst [])

/-! ## Null under either spelling -/

def without (name : Text) (members : Members) : Members :=
  members.filter fun member => member.1 ≠ name

theorem lookup?_without_self (members : Members) (name : Text) :
    lookup? name (without name members) = none := by
  rw [lookup?, without, List.find?_filter, Option.map_eq_none_iff, List.find?_eq_none]
  simp

theorem lookup?_without {name other : Text} (hne : other ≠ name) (members : Members) :
    lookup? other (without name members) = lookup? other members := by
  have hsame : ∀ member : Text × Json,
      (member.1 ≠ name ∧ member.1 = other) = (member.1 = other) :=
    fun member => propext (and_iff_right_of_imp fun h => h ▸ hne)
  rw [lookup?, lookup?, without, List.find?_filter]
  simp only [decide_eq_true_eq, hsame]

/-- Null under the first spelling is as good as nothing. -/
theorem fromMembers_without {members : Members} (single : Single members) {x : Setting}
    (h : lookup? x.camel members = some .null) :
    fromMembers members = fromMembers (without x.camel members) := by
  have hsnake : lookup? x.snake members = none :=
    (single x).resolve_left fun hnone => by simp [h] at hnone
  refine fromMembers_congr fun y => ?_
  rw [picked_eq, picked_eq]
  by_cases hy : y = x
  · subst hy
    rw [lookup?_without_self, lookup?_without y.snake_ne_camel, h, hsnake]
    rfl
  · rw [lookup?_without (Setting.ofSpelling?_ne hy y.ofSpelling?_camel),
      lookup?_without (Setting.ofSpelling?_ne hy y.ofSpelling?_snake)]

/-- Null under the second spelling is refused. -/
theorem fromMembers_null_snake {members : Members} (single : Single members) {x : Setting}
    (h : lookup? x.snake members = some .null) :
    fromMembers members = .error (nullRefusal members x) := by
  have hcamel : lookup? x.camel members = none :=
    (single x).resolve_right fun hnone => by simp [h] at hnone
  refine fromMembers_null ?_
  rw [picked_eq, hcamel, h]
  rfl

/-! ## Interchangeable spellings -/

section

variable {members : Members} (single : Single members) (chosen : Setting → Bool)

include single

theorem single_respell : Single (respell chosen members) := by
  intro x
  rw [lookup?_respell, lookup?_respell, respelled_camel, respelled_snake]
  split
  · exact (single x).symm
  · exact single x

theorem picked_respell {x : Setting} (h : chosen x = true → x.value? members ≠ some .null) :
    picked (respell chosen members) x = picked members x := by
  cases hchosen : chosen x with
  | true =>
      have hvalue := value?_respell single chosen x
      rw [picked_of_ne_null (h hchosen), ← hvalue, picked_of_ne_null (hvalue ▸ h hchosen)]
  | false =>
      rw [picked_eq, picked_eq, lookup?_respell, lookup?_respell, respelled_camel, respelled_snake]
      simp [hchosen]

/-- **The two spellings of a setting are interchangeable but for null.** If no
replaced setting is null, an object yields the same configuration, or is refused
in the same way. A null counts as nothing under the first spelling and is
refused under the second one; so an object that is accepted yields the same
exactly if no replaced setting is null. -/
theorem fromMembers_respell :
    ((∀ x, chosen x = true → x.value? members ≠ some .null) →
      fromMembers (respell chosen members) = fromMembers members) ∧
    (∀ x, chosen x = true →
      (lookup? x.camel members = some .null →
        fromMembers members = fromMembers (without x.camel members) ∧
        fromMembers (respell chosen members) =
          .error (nullRefusal (respell chosen members) x)) ∧
      (lookup? x.snake members = some .null →
        fromMembers members = .error (nullRefusal members x) ∧
        fromMembers (respell chosen members) =
          fromMembers (without x.camel (respell chosen members)))) ∧
    ∀ c, fromMembers members = .ok c →
      (fromMembers (respell chosen members) = .ok c ↔
        ∀ x, chosen x = true → x.value? members ≠ some .null) := by
  have hsame : (∀ x, chosen x = true → x.value? members ≠ some .null) →
      fromMembers (respell chosen members) = fromMembers members :=
    fun h => fromMembers_congr fun x => picked_respell single chosen (h x)
  have hsingle := single_respell single chosen
  have hcamel : ∀ x, chosen x = true → lookup? x.camel members = some .null →
      fromMembers (respell chosen members) = .error (nullRefusal (respell chosen members) x) := by
    intro x hx h
    refine fromMembers_null_snake hsingle ?_
    rwa [lookup?_respell, respelled_snake, if_pos hx]
  have hsnake : ∀ x, chosen x = true → lookup? x.snake members = some .null →
      fromMembers (respell chosen members) =
        fromMembers (without x.camel (respell chosen members)) := by
    intro x hx h
    refine fromMembers_without hsingle ?_
    rwa [lookup?_respell, respelled_camel, if_pos hx]
  refine ⟨hsame, fun x hx => ⟨fun h => ⟨fromMembers_without single h, hcamel x hx h⟩,
    fun h => ⟨fromMembers_null_snake single h, hsnake x hx h⟩⟩,
    fun c hc => ⟨fun heq x hx hnull => ?_, fun h => (hsame h).trans hc⟩⟩
  rcases Option.or_eq_some_iff.mp hnull with h | ⟨-, h⟩
  · rw [hcamel x hx h] at heq
    cases heq
  · rw [fromMembers_null_snake single h] at hc
    cases hc

end

namespace Sample

/-- Little-endian memories and no policy. -/
def sparse : Json.Members :=
  [("little_endian", .bool true), ("unknownTag", .null)]

end Sample

theorem single_sparse : Single Sample.sparse := by
  intro x
  cases x
  · exact Or.inl (by decide)
  · exact Or.inl (by decide)
  · exact Or.inr (by decide)

/-- The truth value of the sample may be respelled, and its null may not. -/
theorem fromMembers_respell_sample :
    fromMembers (respell (· = .littleEndian) Sample.sparse) = fromMembers Sample.sparse ∧
    fromMembers (respell (· = .unknownTag) Sample.sparse) =
      .error (nullRefusal (respell (· = .unknownTag) Sample.sparse) .unknownTag) ∧
    fromMembers (respell (· = .unknownTag) Sample.sparse) ≠ .ok default := by
  have hvalue : Setting.littleEndian.value? Sample.sparse = some (.bool true) := rfl
  have hlittle := (fromMembers_respell single_sparse (· = .littleEndian)).1 fun x hx => by
    rw [of_decide_eq_true hx, hvalue]
    simp
  have hpolicy := (fromMembers_respell single_sparse (· = .unknownTag)).2
  refine ⟨hlittle, ((hpolicy.1 .unknownTag rfl).1 rfl).2, fun h => ?_⟩
  exact ((hpolicy.2 default rfl).mp h) .unknownTag rfl rfl

/-- Null says nothing in one spelling and is refused in the other. -/
theorem null_respelled :
    respell (· = .littleEndian) [(Setting.littleEndian.camel, .null)] =
      [(Setting.littleEndian.snake, .null)] ∧
    fromMembers [(Setting.littleEndian.camel, .null)] = .ok default ∧
    fromMembers [(Setting.littleEndian.snake, .null)] =
      .error (refusal "expected a boolean, got null") :=
  ⟨rfl, rfl, rfl⟩

end Config

end Relayout

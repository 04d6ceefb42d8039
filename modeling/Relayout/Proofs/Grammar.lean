import Relayout.Json.Printer
import Relayout.Proofs.Numerals

/-!
# The grammar of JSON

`Spells` says which texts spell a value: blanks may stand around every token, a
unit of a quoted text may be escaped in any of its forms, and an object stands
for its members in order of appearance. Reading is exact with respect to it: a
document is read as a value if and only if it spells that value, up to blanks at
its end (`parse?_eq_some_iff`).
-/

namespace Relayout.Json

/-! ## Blanks -/

def Blank (t : Text) : Prop :=
  ∀ u ∈ t, isSpace u = true

theorem blank_nil : Blank [] := by
  simp [Blank]

theorem skipSpace_append {b : Text} (s : Text) (hb : Blank b) : skipSpace (b ++ s) = skipSpace s := by
  rw [skipSpace, List.dropWhile_append_of_pos hb, skipSpace]

theorem skipSpace_cons {u : UInt16} (s : Text) (hu : isSpace u = false) : skipSpace (u :: s) = u :: s := by
  rw [skipSpace, List.dropWhile_cons, hu]
  rfl

theorem skipSpace_blank {b : Text} (hb : Blank b) : skipSpace b = [] := by
  have h := skipSpace_append [] hb
  rwa [List.append_nil] at h

/-- What is skipped is blank. -/
theorem skipSpace_sound (s : Text) : ∃ b, Blank b ∧ s = b ++ skipSpace s :=
  ⟨s.takeWhile isSpace, fun _ hu => List.mem_takeWhile_imp hu, List.takeWhile_append_dropWhile.symm⟩

/-- The first unit that is not skipped, with what is skipped in front of it. -/
theorem skipSpace_eq_cons {s rest : Text} {u : UInt16} (h : skipSpace s = u :: rest) :
    ∃ b, Blank b ∧ s = b ++ u :: rest := by
  obtain ⟨b, hb, hs⟩ := skipSpace_sound s
  exact ⟨b, hb, h ▸ hs⟩

theorem isSpace_of_skipSpace {s rest : Text} {u : UInt16} (h : skipSpace s = u :: rest) :
    isSpace u = false := by
  have hhead := List.head?_dropWhile_not isSpace s
  rw [← skipSpace, h] at hhead
  simpa using hhead

/-- Blanks are not part of a numeral. -/
theorem stops_of_isSpace {u : UInt16} (s : Text) (hu : isSpace u = true) : Stops (u :: s) := by
  refine stops_cons s ?_
  simp only [isSpace, Bool.or_eq_true, decide_eq_true_eq] at hu
  rcases hu with ((rfl | rfl) | rfl) | rfl
  all_goals decide

theorem isSpace_of_opensNumber {u : UInt16} (hu : u = Text.unit '-' ∨ Text.isDigit u = true) :
    isSpace u = false := by
  rcases hu with rfl | hu
  · decide
  · rw [Bool.eq_false_iff]
    intro hspace
    have hdigit := (stops_of_isSpace [] hspace u rfl).1
    rw [hu] at hdigit
    cases hdigit

theorem stops_blank_append {b s : Text} (hb : Blank b) (hs : Stops s) : Stops (b ++ s) := by
  cases b with
  | nil => exact hs
  | cons u b => exact stops_of_isSpace (b ++ s) (hb u List.mem_cons_self)

/-! ## Quoted texts -/

/-- What stands between quotation marks, with the text that it spells. -/
inductive Quoted : Text → Text → Prop
  | nil : Quoted [] []
  | unit {u : UInt16} {s t : Text} (hmark : u ≠ Text.unit '"') (hslash : u ≠ Text.unit '\\')
      (hcontrol : ¬u < 0x20) (h : Quoted s t) : Quoted (u :: s) (u :: t)
  | letter {l v : UInt16} {s t : Text} (hl : unescapeLetter? l = some v) (h : Quoted s t) :
      Quoted (Text.unit '\\' :: l :: s) (v :: t)
  | hex {a b c d v : UInt16} {s t : Text} (hv : hexUnit? a b c d = some v) (h : Quoted s t) :
      Quoted (Text.unit '\\' :: Text.unit 'u' :: a :: b :: c :: d :: s) (v :: t)

theorem readQuoted?_mark (rest : Text) : readQuoted? (Text.unit '"' :: rest) = some ([], rest) := by
  rw [readQuoted?.eq_def]
  simp only [if_pos]

theorem readQuoted?_unit {u : UInt16} (hmark : u ≠ Text.unit '"') (hslash : u ≠ Text.unit '\\')
    (hcontrol : ¬u < 0x20) (rest : Text) :
    readQuoted? (u :: rest) = (readQuoted? rest).map fun (t, s) => (u :: t, s) := by
  rw [readQuoted?.eq_def]
  simp only [if_neg hmark, if_neg hslash, if_neg hcontrol]

theorem readQuoted?_letter {l v : UInt16} (hl : unescapeLetter? l = some v) (rest : Text) :
    readQuoted? (Text.unit '\\' :: l :: rest) = (readQuoted? rest).map fun (t, s) => (v :: t, s) := by
  have hslash : Text.unit '\\' ≠ Text.unit '"' := by decide
  have hu : l ≠ Text.unit 'u' := by
    rintro rfl
    have hnone : unescapeLetter? (Text.unit 'u') = none := by decide
    rw [hnone] at hl
    cases hl
  rw [readQuoted?.eq_def]
  simp only [if_neg hslash, if_pos, if_neg hu, hl]

theorem readQuoted?_hex {a b c d v : UInt16} (hv : hexUnit? a b c d = some v) (rest : Text) :
    readQuoted? (Text.unit '\\' :: Text.unit 'u' :: a :: b :: c :: d :: rest) =
      (readQuoted? rest).map fun (t, s) => (v :: t, s) := by
  have hslash : Text.unit '\\' ≠ Text.unit '"' := by decide
  rw [readQuoted?.eq_def]
  simp only [if_neg hslash, if_pos, hv]

theorem Quoted.read {s t : Text} (h : Quoted s t) (rest : Text) :
    readQuoted? (s ++ Text.unit '"' :: rest) = some (t, rest) := by
  induction h with
  | nil => exact readQuoted?_mark rest
  | unit hmark hslash hcontrol h ih =>
      rw [List.cons_append, readQuoted?_unit hmark hslash hcontrol, ih]
      rfl
  | letter hl h ih =>
      rw [List.cons_append, List.cons_append, readQuoted?_letter hl, ih]
      rfl
  | hex hv h ih =>
      rw [List.cons_append, List.cons_append, List.cons_append, List.cons_append, List.cons_append,
        List.cons_append, readQuoted?_hex hv, ih]
      rfl

theorem readQuoted?_sound {s t rest : Text} (h : readQuoted? s = some (t, rest)) :
    ∃ q, s = q ++ Text.unit '"' :: rest ∧ Quoted q t := by
  induction s using readQuoted?.induct generalizing t with
  | case1 => cases h
  | case2 s =>
      rw [readQuoted?_mark] at h
      cases h
      exact ⟨[], rfl, Quoted.nil⟩
  | case3 hslash => cases h
  | case4 a b c d s v hv hslash ih =>
      rw [readQuoted?_hex hv, Option.map_eq_some_iff] at h
      obtain ⟨⟨t', s'⟩, hread, heq⟩ := h
      obtain ⟨rfl, rfl⟩ := Prod.mk.inj heq
      obtain ⟨q, rfl, hq⟩ := ih hread
      exact ⟨_, rfl, Quoted.hex hv hq⟩
  | case5 a b c d s hv hslash =>
      rw [readQuoted?.eq_def] at h
      simp [hslash, hv] at h
  | case6 s hshort hslash =>
      rw [readQuoted?.eq_def] at h
      simp [hslash] at h
  | case7 letter s hu v hl hslash ih =>
      rw [readQuoted?_letter hl, Option.map_eq_some_iff] at h
      obtain ⟨⟨t', s'⟩, hread, heq⟩ := h
      obtain ⟨rfl, rfl⟩ := Prod.mk.inj heq
      obtain ⟨q, rfl, hq⟩ := ih hread
      exact ⟨_, rfl, Quoted.letter hl hq⟩
  | case8 letter s hu hl hslash =>
      rw [readQuoted?.eq_def] at h
      simp [hslash, hu, hl] at h
  | case9 u s hmark hslash hcontrol =>
      rw [readQuoted?.eq_def] at h
      simp [hmark, hslash, hcontrol] at h
  | case10 u s hmark hslash hcontrol ih =>
      rw [readQuoted?_unit hmark hslash hcontrol, Option.map_eq_some_iff] at h
      obtain ⟨⟨t', s'⟩, hread, heq⟩ := h
      obtain ⟨rfl, rfl⟩ := Prod.mk.inj heq
      obtain ⟨q, rfl, hq⟩ := ih hread
      exact ⟨_, rfl, Quoted.unit hmark hslash hcontrol hq⟩

/-! ## Values -/

/-- What a text may spell: a value, the items of a list, or the members of an object. -/
inductive Part where
  | value (v : Json)
  | items (vs : List Json)
  | members (ms : Members)

inductive Spells : Part → Text → Prop
  | padded {v : Json} {b s : Text} (hb : Blank b) (h : Spells (.value v) s) :
      Spells (.value v) (b ++ s)
  | null : Spells (.value .null) (Text.ofString "null")
  | yes : Spells (.value (.bool true)) (Text.ofString "true")
  | no : Spells (.value (.bool false)) (Text.ofString "false")
  | num {s : Text} {x : Num} (h : Numeral s x) : Spells (.value (.num x)) s
  | str {s t : Text} (h : Quoted s t) :
      Spells (.value (.str t)) (Text.unit '"' :: (s ++ [Text.unit '"']))
  | emptyList {b : Text} (hb : Blank b) :
      Spells (.value (.arr [])) (Text.unit '[' :: (b ++ [Text.unit ']']))
  | list {s : Text} {vs : List Json} (h : Spells (.items vs) s) :
      Spells (.value (.arr vs)) (Text.unit '[' :: (s ++ [Text.unit ']']))
  | emptyObject {b : Text} (hb : Blank b) :
      Spells (.value (.obj [])) (Text.unit '{' :: (b ++ [Text.unit '}']))
  | object {s : Text} {ms : Members} (h : Spells (.members ms) s) :
      Spells (.value (ofMembers ms)) (Text.unit '{' :: (s ++ [Text.unit '}']))
  | lastItem {s b : Text} {v : Json} (h : Spells (.value v) s) (hb : Blank b) :
      Spells (.items [v]) (s ++ b)
  | item {s b s' : Text} {v : Json} {vs : List Json} (h : Spells (.value v) s) (hb : Blank b)
      (hrest : Spells (.items vs) s') : Spells (.items (v :: vs)) (s ++ (b ++ Text.unit ',' :: s'))
  | lastMember {a q b s c name : Text} {v : Json} (ha : Blank a) (hq : Quoted q name) (hb : Blank b)
      (h : Spells (.value v) s) (hc : Blank c) :
      Spells (.members [(name, v)])
        (a ++ Text.unit '"' :: (q ++ Text.unit '"' :: (b ++ Text.unit ':' :: (s ++ c))))
  | member {a q b s c s' name : Text} {v : Json} {ms : Members} (ha : Blank a) (hq : Quoted q name)
      (hb : Blank b) (h : Spells (.value v) s) (hc : Blank c) (hrest : Spells (.members ms) s') :
      Spells (.members ((name, v) :: ms))
        (a ++ Text.unit '"' :: (q ++ Text.unit '"' :: (b ++ Text.unit ':' :: (s ++ (c ++
          Text.unit ',' :: s')))))

/-- A document that consists of a value, with blanks around it. -/
def Document (s : Text) (v : Json) : Prop :=
  ∃ t b, s = t ++ b ∧ Spells (.value v) t ∧ Blank b

/-! ## How a reader goes on -/

section Steps

variable (fuel : Nat)

theorem readValue?_quote (s : Text) :
    readValue? (fuel + 1) (Text.unit '"' :: s) = (readQuoted? s).map fun (t, s') => (.str t, s') := by
  rw [readValue?]
  rfl

theorem readValue?_list (s : Text) :
    readValue? (fuel + 1) (Text.unit '[' :: s) =
      match skipSpace s with
      | [] => none
      | u :: rest =>
        if u = Text.unit ']' then some (.arr [], rest)
        else (readItems? fuel (u :: rest)).map fun (items, s') => (.arr items, s') := by
  rw [readValue?]
  rfl

theorem readValue?_object (s : Text) :
    readValue? (fuel + 1) (Text.unit '{' :: s) =
      match skipSpace s with
      | [] => none
      | u :: rest =>
        if u = Text.unit '}' then some (.obj [], rest)
        else (readMembers? fuel (u :: rest)).map fun (ms, s') => (ofMembers ms, s') := by
  rw [readValue?]
  rfl

theorem readValue?_true (s : Text) :
    readValue? (fuel + 1) (Text.unit 't' :: s) =
      (readWord? "true" (Text.unit 't' :: s)).map fun s' => (.bool true, s') := by
  rw [readValue?]
  rfl

theorem readValue?_false (s : Text) :
    readValue? (fuel + 1) (Text.unit 'f' :: s) =
      (readWord? "false" (Text.unit 'f' :: s)).map fun s' => (.bool false, s') := by
  rw [readValue?]
  rfl

theorem readValue?_null (s : Text) :
    readValue? (fuel + 1) (Text.unit 'n' :: s) =
      (readWord? "null" (Text.unit 'n' :: s)).map fun s' => (.null, s') := by
  rw [readValue?]
  rfl

/-- The units that open a value other than a number. -/
def openers : List UInt16 :=
  [Text.unit '{', Text.unit '[', Text.unit '"', Text.unit 't', Text.unit 'f', Text.unit 'n']

/-- What no other unit opens is a number. -/
theorem readValue?_else {u : UInt16} (s : Text) (hspace : isSpace u = false) (hu : u ∉ openers) :
    readValue? (fuel + 1) (u :: s) = (readNum? (u :: s)).map fun (x, s') => (.num x, s') := by
  simp only [openers, List.mem_cons, List.not_mem_nil, or_false, not_or] at hu
  obtain ⟨hobject, hlist, hquote, htrue, hfalse, hnull⟩ := hu
  rw [readValue?, skipSpace_cons s hspace]
  simp only [if_neg hobject, if_neg hlist, if_neg hquote, if_neg htrue, if_neg hfalse, if_neg hnull]

/-- A minus or a digit opens a number. -/
theorem readValue?_num {u : UInt16} (s : Text) (hu : u = Text.unit '-' ∨ Text.isDigit u = true) :
    readValue? (fuel + 1) (u :: s) = (readNum? (u :: s)).map fun (x, s') => (.num x, s') := by
  refine readValue?_else fuel s (isSpace_of_opensNumber hu) fun hmem => ?_
  simp only [openers, List.mem_cons, List.not_mem_nil, or_false] at hmem
  rcases hmem with rfl | rfl | rfl | rfl | rfl | rfl
  all_goals exact absurd hu (by decide)

theorem readValue?_blank {b : Text} (hb : Blank b) (s : Text) :
    readValue? fuel (b ++ s) = readValue? fuel s := by
  cases fuel with
  | zero => rfl
  | succ fuel => rw [readValue?, readValue?, skipSpace_append s hb]

theorem readItems?_skipSpace (s : Text) : readItems? fuel (skipSpace s) = readItems? fuel s := by
  obtain ⟨b, hb, hs⟩ := skipSpace_sound s
  conv_rhs => rw [hs]
  cases fuel with
  | zero => rfl
  | succ fuel => rw [readItems?, readItems?, readValue?_blank fuel hb]

theorem readMembers?_skipSpace (s : Text) :
    readMembers? fuel (skipSpace s) = readMembers? fuel s := by
  obtain ⟨b, hb, hs⟩ := skipSpace_sound s
  conv_rhs => rw [hs]
  cases fuel with
  | zero => rfl
  | succ fuel => rw [readMembers?, readMembers?, skipSpace_append _ hb]

end Steps

/-! ## Every spelling is read -/

/-- A part starts, after blanks, with a unit that closes nothing. -/
theorem Spells.head {p : Part} {s : Text} (h : Spells p s) :
    ∃ b u t, Blank b ∧ s = b ++ u :: t ∧ isSpace u = false ∧ u ≠ Text.unit ']' ∧ u ≠ Text.unit '}' := by
  induction h with
  | @padded v b s hb h ih =>
      obtain ⟨b', u, t, hb', rfl, hu⟩ := ih
      exact ⟨b ++ b', u, t, List.forall_mem_append.mpr ⟨hb, hb'⟩, by rw [List.append_assoc], hu⟩
  | null => exact ⟨[], _, _, blank_nil, rfl, by decide, by decide, by decide⟩
  | yes => exact ⟨[], _, _, blank_nil, rfl, by decide, by decide, by decide⟩
  | no => exact ⟨[], _, _, blank_nil, rfl, by decide, by decide, by decide⟩
  | num h =>
      obtain ⟨u, t, rfl, hu⟩ := h.head
      refine ⟨[], u, t, blank_nil, rfl, isSpace_of_opensNumber hu, ?_, ?_⟩
      all_goals
        rintro rfl
        exact absurd hu (by decide)
  | str h => exact ⟨[], _, _, blank_nil, rfl, by decide, by decide, by decide⟩
  | emptyList hb => exact ⟨[], _, _, blank_nil, rfl, by decide, by decide, by decide⟩
  | list h ih => exact ⟨[], _, _, blank_nil, rfl, by decide, by decide, by decide⟩
  | emptyObject hb => exact ⟨[], _, _, blank_nil, rfl, by decide, by decide, by decide⟩
  | object h ih => exact ⟨[], _, _, blank_nil, rfl, by decide, by decide, by decide⟩
  | lastItem h hb ih =>
      obtain ⟨b', u, t, hb', rfl, hu⟩ := ih
      exact ⟨b', u, _, hb', by rw [List.append_assoc, List.cons_append], hu⟩
  | item h hb hrest ih =>
      obtain ⟨b', u, t, hb', rfl, hu⟩ := ih
      exact ⟨b', u, _, hb', by rw [List.append_assoc, List.cons_append], hu⟩
  | lastMember ha hq hb h hc ih => exact ⟨_, _, _, ha, rfl, by decide, by decide, by decide⟩
  | member ha hq hb h hc hrest ih => exact ⟨_, _, _, ha, rfl, by decide, by decide, by decide⟩

theorem Spells.skipSpace_eq {p : Part} {s : Text} (h : Spells p s) (tail : Text) :
    ∃ u t, skipSpace (s ++ tail) = u :: t ∧ u ≠ Text.unit ']' ∧ u ≠ Text.unit '}' := by
  obtain ⟨b, u, t, hb, rfl, hspace, hne⟩ := h.head
  exact ⟨u, t ++ tail,
    by rw [List.append_assoc, List.cons_append, skipSpace_append _ hb, skipSpace_cons _ hspace], hne⟩

/-- How the spelling of a part is read in front of what follows it. -/
def Read : Part → Text → Prop
  | .value v, s => ∀ fuel rest, 2 * s.length ≤ fuel → Stops rest →
      readValue? fuel (s ++ rest) = some (v, rest)
  | .items vs, s => ∀ fuel rest, 2 * s.length + 1 ≤ fuel →
      readItems? fuel (s ++ Text.unit ']' :: rest) = some (vs, rest)
  | .members ms, s => ∀ fuel rest, 2 * s.length + 1 ≤ fuel →
      readMembers? fuel (s ++ Text.unit '}' :: rest) = some (ms, rest)

/-- A value that is read after its first unit. -/
theorem read_opened {v : Json} {u : UInt16} {s : Text}
    (h : ∀ fuel rest, 2 * s.length + 1 ≤ fuel → Stops rest →
      readValue? (fuel + 1) (u :: (s ++ rest)) = some (v, rest)) : Read (.value v) (u :: s) := by
  intro fuel rest hfuel hrest
  rw [List.length_cons] at hfuel
  obtain ⟨fuel, rfl⟩ := Nat.exists_eq_succ_of_ne_zero (n := fuel) (by omega)
  exact h fuel rest (by omega) hrest

/-- A member is read up to the unit after it, which says whether there are more. -/
theorem readMembers?_member {a q b s c tail name : Text} {v : Json} {u : UInt16} {fuel : Nat}
    (ha : Blank a) (hq : Quoted q name) (hb : Blank b) (h : Read (.value v) s) (hc : Blank c)
    (hspace : isSpace u = false) (hstops : Stops (u :: tail)) (hfuel : 2 * s.length ≤ fuel) :
    readMembers? (fuel + 1) (a ++ Text.unit '"' :: (q ++ Text.unit '"' :: (b ++ Text.unit ':' ::
        (s ++ (c ++ u :: tail))))) =
      if u = Text.unit '}' then some ([(name, v)], tail)
      else if u = Text.unit ',' then
        (readMembers? fuel tail).map fun (ms, rest) => ((name, v) :: ms, rest)
      else none := by
  rw [readMembers?, skipSpace_append _ ha, skipSpace_cons _ (by decide)]
  simp only [if_pos, hq.read, skipSpace_append _ hb,
    skipSpace_cons _ (by decide : isSpace (Text.unit ':') = false),
    h fuel _ hfuel (stops_blank_append hc hstops), skipSpace_append _ hc, skipSpace_cons _ hspace]

theorem read_padded {v : Json} {b s : Text} (hb : Blank b) (h : Read (.value v) s) :
    Read (.value v) (b ++ s) := by
  intro fuel rest hfuel hrest
  rw [List.length_append] at hfuel
  rw [List.append_assoc, readValue?_blank fuel hb]
  exact h fuel rest (by omega) hrest

theorem read_num {s : Text} {x : Num} (h : Numeral s x) : Read (.value (.num x)) s := by
  obtain ⟨u, t, rfl, hu⟩ := h.head
  refine read_opened fun fuel rest _ hrest => ?_
  rw [readValue?_num fuel _ hu, ← List.cons_append, h.read hrest]
  rfl

theorem read_str {s t : Text} (h : Quoted s t) :
    Read (.value (.str t)) (Text.unit '"' :: (s ++ [Text.unit '"'])) := by
  refine read_opened fun fuel rest _ _ => ?_
  rw [List.append_assoc, List.singleton_append, readValue?_quote, h.read]
  rfl

theorem read_emptyList {b : Text} (hb : Blank b) :
    Read (.value (.arr [])) (Text.unit '[' :: (b ++ [Text.unit ']'])) := by
  refine read_opened fun fuel rest _ _ => ?_
  rw [List.append_assoc, List.singleton_append, readValue?_list, skipSpace_append _ hb,
    skipSpace_cons _ (by decide)]
  rfl

theorem read_list {s : Text} {vs : List Json} (h : Spells (.items vs) s) (hread : Read (.items vs) s) :
    Read (.value (.arr vs)) (Text.unit '[' :: (s ++ [Text.unit ']'])) := by
  refine read_opened fun fuel rest hfuel _ => ?_
  rw [List.length_append, List.length_singleton] at hfuel
  obtain ⟨u, t, hskip, hne, -⟩ := h.skipSpace_eq (Text.unit ']' :: rest)
  rw [List.append_assoc, List.singleton_append, readValue?_list, hskip]
  simp only [if_neg hne]
  rw [← hskip, readItems?_skipSpace, hread fuel rest (by omega)]
  rfl

theorem read_emptyObject {b : Text} (hb : Blank b) :
    Read (.value (.obj [])) (Text.unit '{' :: (b ++ [Text.unit '}'])) := by
  refine read_opened fun fuel rest _ _ => ?_
  rw [List.append_assoc, List.singleton_append, readValue?_object, skipSpace_append _ hb,
    skipSpace_cons _ (by decide)]
  rfl

theorem read_object {s : Text} {ms : Members} (h : Spells (.members ms) s)
    (hread : Read (.members ms) s) :
    Read (.value (ofMembers ms)) (Text.unit '{' :: (s ++ [Text.unit '}'])) := by
  refine read_opened fun fuel rest hfuel _ => ?_
  rw [List.length_append, List.length_singleton] at hfuel
  obtain ⟨u, t, hskip, -, hne⟩ := h.skipSpace_eq (Text.unit '}' :: rest)
  rw [List.append_assoc, List.singleton_append, readValue?_object, hskip]
  simp only [if_neg hne]
  rw [← hskip, readMembers?_skipSpace, hread fuel rest (by omega)]
  rfl

theorem read_lastItem {s b : Text} {v : Json} (h : Read (.value v) s) (hb : Blank b) :
    Read (.items [v]) (s ++ b) := by
  intro fuel rest hfuel
  obtain ⟨fuel, rfl⟩ := Nat.exists_eq_succ_of_ne_zero (n := fuel) (by omega)
  rw [List.length_append] at hfuel
  have hstops : Stops (b ++ Text.unit ']' :: rest) := stops_blank_append hb (stops_cons _ (by decide))
  rw [List.append_assoc, readItems?, h fuel _ (by omega) hstops]
  simp only [skipSpace_append _ hb]
  rfl

theorem read_item {s b s' : Text} {v : Json} {vs : List Json} (h : Read (.value v) s) (hb : Blank b)
    (hrest : Read (.items vs) s') : Read (.items (v :: vs)) (s ++ (b ++ Text.unit ',' :: s')) := by
  intro fuel rest hfuel
  obtain ⟨fuel, rfl⟩ := Nat.exists_eq_succ_of_ne_zero (n := fuel) (by omega)
  rw [List.length_append, List.length_append, List.length_cons] at hfuel
  have hstops : Stops (b ++ Text.unit ',' :: s' ++ Text.unit ']' :: rest) := by
    rw [List.append_assoc]
    exact stops_blank_append hb (stops_cons _ (by decide))
  have hskip : skipSpace (b ++ Text.unit ',' :: s' ++ Text.unit ']' :: rest) =
      Text.unit ',' :: (s' ++ Text.unit ']' :: rest) := by
    rw [List.append_assoc, List.cons_append, skipSpace_append _ hb, skipSpace_cons _ (by decide)]
  have hcomma : Text.unit ',' ≠ Text.unit ']' := by decide
  rw [List.append_assoc, readItems?, h fuel _ (by omega) hstops]
  simp only [hskip, if_neg hcomma, if_pos, hrest fuel rest (by omega)]
  rfl

theorem read_lastMember {a q b s c name : Text} {v : Json} (ha : Blank a) (hq : Quoted q name)
    (hb : Blank b) (h : Read (.value v) s) (hc : Blank c) :
    Read (.members [(name, v)])
      (a ++ Text.unit '"' :: (q ++ Text.unit '"' :: (b ++ Text.unit ':' :: (s ++ c)))) := by
  intro fuel rest hfuel
  obtain ⟨fuel, rfl⟩ := Nat.exists_eq_succ_of_ne_zero (n := fuel) (by omega)
  simp only [List.length_append, List.length_cons] at hfuel
  simp only [List.append_assoc, List.cons_append]
  rw [readMembers?_member ha hq hb h hc (by decide) (stops_cons _ (by decide)) (by omega), if_pos rfl]

theorem read_member {a q b s c s' name : Text} {v : Json} {ms : Members} (ha : Blank a)
    (hq : Quoted q name) (hb : Blank b) (h : Read (.value v) s) (hc : Blank c)
    (hrest : Read (.members ms) s') :
    Read (.members ((name, v) :: ms))
      (a ++ Text.unit '"' :: (q ++ Text.unit '"' :: (b ++ Text.unit ':' :: (s ++ (c ++
        Text.unit ',' :: s'))))) := by
  intro fuel rest hfuel
  obtain ⟨fuel, rfl⟩ := Nat.exists_eq_succ_of_ne_zero (n := fuel) (by omega)
  simp only [List.length_append, List.length_cons] at hfuel
  simp only [List.append_assoc, List.cons_append]
  rw [readMembers?_member ha hq hb h hc (by decide) (stops_cons _ (by decide)) (by omega),
    if_neg (by decide), if_pos rfl, hrest fuel rest (by omega)]
  rfl

theorem Spells.read {p : Part} {s : Text} (h : Spells p s) : Read p s := by
  induction h with
  | padded hb h ih => exact read_padded hb ih
  | null =>
      refine read_opened fun fuel rest _ _ => ?_
      rw [readValue?]
      rfl
  | yes =>
      refine read_opened fun fuel rest _ _ => ?_
      rw [readValue?]
      rfl
  | no =>
      refine read_opened fun fuel rest _ _ => ?_
      rw [readValue?]
      rfl
  | num h => exact read_num h
  | str h => exact read_str h
  | emptyList hb => exact read_emptyList hb
  | list h ih => exact read_list h ih
  | emptyObject hb => exact read_emptyObject hb
  | object h ih => exact read_object h ih
  | lastItem h hb ih => exact read_lastItem ih hb
  | item h hb hrest ih ihrest => exact read_item ih hb ihrest
  | lastMember ha hq hb h hc ih => exact read_lastMember ha hq hb ih hc
  | member ha hq hb h hc hrest ih ihrest => exact read_member ha hq hb ih hc ihrest

/-! ## Whatever is read is spelled -/

/-- With some fuel, the readers read only what is spelled. -/
structure Sound (fuel : Nat) : Prop where
  value : ∀ {s v rest}, readValue? fuel s = some (v, rest) → ∃ t, s = t ++ rest ∧ Spells (.value v) t
  items : ∀ {s vs rest}, readItems? fuel s = some (vs, rest) →
    ∃ t, s = t ++ Text.unit ']' :: rest ∧ Spells (.items vs) t
  members : ∀ {s ms rest}, readMembers? fuel s = some (ms, rest) →
    ∃ t, s = t ++ Text.unit '}' :: rest ∧ Spells (.members ms) t

theorem readWord?_sound {word s rest : Text} (h : readWord? word s = some rest) : s = word ++ rest := by
  rw [readWord?] at h
  split at h
  · rename_i hprefix
    obtain ⟨tail, rfl⟩ := List.isPrefixOf_iff_prefix.mp hprefix
    rw [List.drop_left, Option.some.injEq] at h
    rw [h]
  · cases h

/-- What follows a bracket that opens: the one that closes, or parts. -/
theorem opened_cases {α : Type} {read : Text → Option (α × Text)} {close : UInt16} {empty v : Json}
    {make : α → Json} {s rest : Text} (hread : read (skipSpace s) = read s)
    (h : (match skipSpace s with
      | [] => none
      | u :: s' =>
        if u = close then some (empty, s')
        else (read (u :: s')).map fun (parts, s'') => (make parts, s'')) = some (v, rest)) :
    (∃ b, Blank b ∧ s = b ++ close :: rest ∧ v = empty) ∨
      ∃ parts, read s = some (parts, rest) ∧ v = make parts := by
  split at h
  · cases h
  rename_i u s' hskip
  split at h
  · rename_i hclose
    cases h
    obtain ⟨b, hb, hs⟩ := skipSpace_eq_cons hskip
    exact Or.inl ⟨b, hb, hclose ▸ hs, rfl⟩
  · rw [← hskip, hread, Option.map_eq_some_iff] at h
    obtain ⟨⟨parts, s''⟩, hparts, heq⟩ := h
    cases heq
    exact Or.inr ⟨parts, hparts, rfl⟩

theorem Sound.list {fuel : Nat} (sound : Sound fuel) {s rest : Text} {v : Json}
    (h : readValue? (fuel + 1) (Text.unit '[' :: s) = some (v, rest)) :
    ∃ t, Text.unit '[' :: s = t ++ rest ∧ Spells (.value v) t := by
  rw [readValue?_list] at h
  rcases opened_cases (readItems?_skipSpace fuel s) h with ⟨b, hb, rfl, rfl⟩ | ⟨vs, hread, rfl⟩
  · exact ⟨_, by rw [List.cons_append, List.append_assoc]; rfl, Spells.emptyList hb⟩
  · obtain ⟨t, rfl, ht⟩ := sound.items hread
    exact ⟨_, by rw [List.cons_append, List.append_assoc]; rfl, Spells.list ht⟩

theorem Sound.object {fuel : Nat} (sound : Sound fuel) {s rest : Text} {v : Json}
    (h : readValue? (fuel + 1) (Text.unit '{' :: s) = some (v, rest)) :
    ∃ t, Text.unit '{' :: s = t ++ rest ∧ Spells (.value v) t := by
  rw [readValue?_object] at h
  rcases opened_cases (readMembers?_skipSpace fuel s) h with ⟨b, hb, rfl, rfl⟩ | ⟨ms, hread, rfl⟩
  · exact ⟨_, by rw [List.cons_append, List.append_assoc]; rfl, Spells.emptyObject hb⟩
  · obtain ⟨t, rfl, ht⟩ := sound.members hread
    exact ⟨_, by rw [List.cons_append, List.append_assoc]; rfl, Spells.object ht⟩

/-- A value without blanks in front of it. -/
theorem Sound.core {fuel : Nat} (sound : Sound fuel) {u : UInt16} {s rest : Text} {v : Json}
    (hspace : isSpace u = false) (h : readValue? (fuel + 1) (u :: s) = some (v, rest)) :
    ∃ t, u :: s = t ++ rest ∧ Spells (.value v) t := by
  by_cases hu : u ∈ openers
  · simp only [openers, List.mem_cons, List.not_mem_nil, or_false] at hu
    rcases hu with rfl | rfl | rfl | rfl | rfl | rfl
    · exact sound.object h
    · exact sound.list h
    · rw [readValue?_quote, Option.map_eq_some_iff] at h
      obtain ⟨⟨t, s'⟩, hread, heq⟩ := h
      cases heq
      obtain ⟨q, rfl, hq⟩ := readQuoted?_sound hread
      exact ⟨_, by rw [List.cons_append, List.append_assoc]; rfl, Spells.str hq⟩
    · rw [readValue?_true, Option.map_eq_some_iff] at h
      obtain ⟨s', hread, heq⟩ := h
      cases heq
      exact ⟨_, readWord?_sound hread, Spells.yes⟩
    · rw [readValue?_false, Option.map_eq_some_iff] at h
      obtain ⟨s', hread, heq⟩ := h
      cases heq
      exact ⟨_, readWord?_sound hread, Spells.no⟩
    · rw [readValue?_null, Option.map_eq_some_iff] at h
      obtain ⟨s', hread, heq⟩ := h
      cases heq
      exact ⟨_, readWord?_sound hread, Spells.null⟩
  · rw [readValue?_else fuel s hspace hu, Option.map_eq_some_iff] at h
    obtain ⟨⟨x, s'⟩, hread, heq⟩ := h
    cases heq
    obtain ⟨t, ht, hx⟩ := readNum?_sound hread
    exact ⟨t, ht, Spells.num hx⟩

theorem Sound.value_succ {fuel : Nat} (sound : Sound fuel) {s rest : Text} {v : Json}
    (h : readValue? (fuel + 1) s = some (v, rest)) : ∃ t, s = t ++ rest ∧ Spells (.value v) t := by
  obtain ⟨b, hb, hs⟩ := skipSpace_sound s
  rw [hs, readValue?_blank _ hb] at h
  cases hskip : skipSpace s with
  | nil =>
      rw [hskip] at h
      cases h
  | cons u s' =>
      rw [hskip] at h hs
      obtain ⟨t, ht, hspells⟩ := sound.core (isSpace_of_skipSpace hskip) h
      exact ⟨b ++ t, by rw [hs, ht, List.append_assoc], Spells.padded hb hspells⟩

/-- What follows an item or a member: the bracket that closes, or a comma and more parts. -/
theorem rest_cases {α : Type} {read : Text → Option (List α × Text)} {close : UInt16} {part : α}
    {parts : List α} {s rest : Text}
    (h : (match skipSpace s with
      | [] => none
      | u :: s' =>
        if u = close then some ([part], s')
        else if u = Text.unit ',' then (read s').map fun (others, s'') => (part :: others, s'')
        else none) = some (parts, rest)) :
    ∃ b, Blank b ∧ ((s = b ++ close :: rest ∧ parts = [part]) ∨
      ∃ s' others, s = b ++ Text.unit ',' :: s' ∧ read s' = some (others, rest) ∧
        parts = part :: others) := by
  split at h
  · cases h
  rename_i u s' hskip
  obtain ⟨b, hb, rfl⟩ := skipSpace_eq_cons hskip
  refine ⟨b, hb, ?_⟩
  split at h
  · rename_i hclose
    cases h
    exact Or.inl ⟨by rw [hclose], rfl⟩
  · split at h
    · rename_i hcomma
      rw [Option.map_eq_some_iff] at h
      obtain ⟨⟨others, s''⟩, hread, heq⟩ := h
      cases heq
      exact Or.inr ⟨s', others, by rw [hcomma], hread, rfl⟩
    · cases h

theorem Sound.items_succ {fuel : Nat} (sound : Sound fuel) {s rest : Text} {vs : List Json}
    (h : readItems? (fuel + 1) s = some (vs, rest)) :
    ∃ t, s = t ++ Text.unit ']' :: rest ∧ Spells (.items vs) t := by
  rw [readItems?] at h
  split at h
  · cases h
  rename_i v s' hvalue
  obtain ⟨t, rfl, ht⟩ := sound.value hvalue
  obtain ⟨b, hb, ⟨rfl, rfl⟩ | ⟨s'', others, rfl, hread, rfl⟩⟩ := rest_cases h
  · exact ⟨t ++ b, by rw [List.append_assoc], Spells.lastItem ht hb⟩
  · obtain ⟨t', rfl, ht'⟩ := sound.items hread
    exact ⟨_, by rw [List.append_assoc, List.append_assoc]; rfl, Spells.item ht hb ht'⟩

theorem Sound.members_succ {fuel : Nat} (sound : Sound fuel) {s rest : Text} {ms : Members}
    (h : readMembers? (fuel + 1) s = some (ms, rest)) :
    ∃ t, s = t ++ Text.unit '}' :: rest ∧ Spells (.members ms) t := by
  rw [readMembers?] at h
  -- the mark that opens the name, the name, the colon and the value, one after the other
  split at h
  · cases h
  rename_i mark s₁ hskip
  split at h
  swap
  · cases h
  rename_i hmark
  split at h
  · cases h
  rename_i name s₂ hquoted
  split at h
  · cases h
  rename_i colon s₃ hskip₂
  split at h
  swap
  · cases h
  rename_i hcolon
  split at h
  · cases h
  rename_i v s₄ hvalue
  subst hmark hcolon
  obtain ⟨a, ha, rfl⟩ := skipSpace_eq_cons hskip
  obtain ⟨q, rfl, hq⟩ := readQuoted?_sound hquoted
  obtain ⟨b, hb, rfl⟩ := skipSpace_eq_cons hskip₂
  obtain ⟨t, rfl, ht⟩ := sound.value hvalue
  obtain ⟨c, hc, ⟨rfl, rfl⟩ | ⟨s₅, others, rfl, hread, rfl⟩⟩ := rest_cases h
  · exact ⟨_, by simp, Spells.lastMember ha hq hb ht hc⟩
  · obtain ⟨t', rfl, ht'⟩ := sound.members hread
    exact ⟨_, by simp, Spells.member ha hq hb ht hc ht'⟩

theorem sound (fuel : Nat) : Sound fuel := by
  induction fuel with
  | zero =>
      refine ⟨fun h => ?_, fun h => ?_, fun h => ?_⟩
      · cases h
      · cases h
      · cases h
  | succ fuel ih => exact ⟨ih.value_succ, ih.items_succ, ih.members_succ⟩

/-! ## Documents -/

/-- **A document is read as a value exactly if it spells the value.** -/
theorem parse?_eq_some_iff {s : Text} {v : Json} : parse? s = some v ↔ Document s v := by
  rw [parse?]
  constructor
  · intro h
    split at h
    · rename_i value rest hread
      split at h
      · rename_i hrest
        cases h
        obtain ⟨t, rfl, ht⟩ := (sound _).value hread
        obtain ⟨b, hb, hs⟩ := skipSpace_sound rest
        rw [List.isEmpty_iff.mp hrest, List.append_nil] at hs
        exact ⟨t, rest, rfl, ht, hs ▸ hb⟩
      · cases h
    · cases h
  · rintro ⟨t, b, rfl, ht, hb⟩
    have hread := ht.read (2 * (t ++ b).length + 2) b (by rw [List.length_append]; omega)
      (by simpa using stops_blank_append hb stops_nil)
    simp only [hread, skipSpace_blank hb, List.isEmpty_nil, if_true]

end Relayout.Json

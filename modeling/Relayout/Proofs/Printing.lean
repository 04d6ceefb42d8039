import Relayout.Proofs.Grammar

/-!
# Printing is spelling

The printed form of a value is one of the spellings that the grammar allows:
quoting escapes whatever may not stand for itself (`quoted_quoteUnits`), and a
list or an object is spelled if its parts are. Numbers are left to what the parts
say of them, for not every number has a numeral.
-/

namespace Relayout.Json

/-! ## Escapes -/

theorem hexValue?_hexDigit : ∀ n < 16, hexValue? (hexDigit n) = some n := by decide

/-- Four hexadecimal digits spell their unit. -/
theorem hexUnit?_hexDigits (u : UInt16) :
    hexUnit? (hexDigit (u.toNat / 4096)) (hexDigit (u.toNat / 256 % 16))
      (hexDigit (u.toNat / 16 % 16)) (hexDigit (u.toNat % 16)) = some u := by
  have hu := u.toNat_lt
  have hback : 4096 * (u.toNat / 4096) + 256 * (u.toNat / 256 % 16) + 16 * (u.toNat / 16 % 16) +
      u.toNat % 16 = u.toNat := by omega
  rw [hexUnit?, hexValue?_hexDigit _ (by omega), hexValue?_hexDigit _ (by omega),
    hexValue?_hexDigit _ (by omega), hexValue?_hexDigit _ (by omega)]
  simp only [Option.bind_eq_bind, Option.bind_some, hback]
  simp

theorem unescapeLetter?_of_escapeLetter? {u l : UInt16} (h : escapeLetter? u = some l) :
    unescapeLetter? l = some u := by
  simp only [escapeLetter?] at h
  repeat' split at h
  all_goals
    cases h
    try
      subst u
      decide

/-- A unit that is neither a mark nor a control stands for itself. -/
theorem quoted_plain {u : UInt16} {s t : Text} (hnone : escapeLetter? u = none)
    (hcontrol : ¬u < 0x20) (h : Quoted s t) : Quoted (u :: s) (u :: t) := by
  refine Quoted.unit ?_ ?_ hcontrol h
  · rintro rfl
    exact absurd hnone (by decide)
  · rintro rfl
    exact absurd hnone (by decide)

/-- No escape is needed from the first surrogate on. -/
theorem plain_of_surrogate {u : UInt16} (hu : 0xD800 ≤ u) : escapeLetter? u = none ∧ ¬u < 0x20 := by
  have hle : 0xD800 ≤ u.toNat := UInt16.le_iff_toNat_le.mp hu
  have hne : ∀ c : UInt16, c.toNat < 0xD800 → u ≠ c := by
    rintro c hc rfl
    omega
  constructor
  · simp only [escapeLetter?, if_neg (hne (Text.unit '"') (by decide)),
      if_neg (hne (Text.unit '\\') (by decide)), if_neg (hne 0x08 (by decide)),
      if_neg (hne 0x09 (by decide)), if_neg (hne 0x0A (by decide)), if_neg (hne 0x0C (by decide)),
      if_neg (hne 0x0D (by decide))]
  · rw [UInt16.lt_iff_toNat_lt]
    have hspace : (0x20 : UInt16).toNat = 0x20 := rfl
    omega

theorem quoted_quoteUnit {s t : Text} (u : UInt16) (h : Quoted s t) :
    Quoted (quoteUnit u ++ s) (u :: t) := by
  rw [quoteUnit]
  split
  · rename_i l hl
    exact Quoted.letter (unescapeLetter?_of_escapeLetter? hl) h
  · rename_i hnone
    split
    · exact Quoted.hex (hexUnit?_hexDigits u) h
    · rename_i hplain
      simp only [Bool.or_eq_true, decide_eq_true_eq, not_or] at hplain
      exact quoted_plain hnone hplain.1.1 h

/-- **A quoted text spells the text**, halves of surrogate pairs included. -/
theorem quoted_quoteUnits (t : Text) : Quoted (quoteUnits t) t := by
  induction t using quoteUnits.induct with
  | case1 => exact Quoted.nil
  | case2 u =>
      rw [quoteUnits]
      exact List.append_nil (quoteUnit u) ▸ quoted_quoteUnit u Quoted.nil
  | case3 u v rest hpair ih =>
      rw [quoteUnits, if_pos hpair]
      simp only [Bool.and_eq_true, Text.isHighSurrogate, Text.isLowSurrogate, decide_eq_true_eq] at hpair
      have hu := plain_of_surrogate hpair.1.1
      have hv := plain_of_surrogate (UInt16.le_trans (by decide : (0xD800 : UInt16) ≤ 0xDC00) hpair.2.1)
      exact quoted_plain hu.1 hu.2 (quoted_plain hv.1 hv.2 ih)
  | case4 u v rest hpair ih =>
      rw [quoteUnits, if_neg hpair]
      exact quoted_quoteUnit u ih

theorem spells_str (t : Text) : Spells (.value (.str t)) (print (.str t)) :=
  Spells.str (quoted_quoteUnits t)

/-! ## Lists and objects -/

theorem spells_printItems : ∀ {vs ws : List Json},
    List.Forall₂ (fun v w => Spells (.value w) (print v)) vs ws → vs ≠ [] →
      Spells (.items ws) (printItems vs)
  | [v], _, .cons h .nil, _ => by
      rw [printItems]
      exact List.append_nil (print v) ▸ Spells.lastItem h blank_nil
  | v :: next :: rest, _, .cons h (.cons hnext hrest), _ => by
      rw [printItems]
      exact Spells.item h blank_nil (spells_printItems (.cons hnext hrest) (List.cons_ne_nil _ _))

/-- A printed list is spelled if its items are. -/
theorem spells_arr {vs ws : List Json}
    (h : List.Forall₂ (fun v w => Spells (.value w) (print v)) vs ws) :
    Spells (.value (.arr ws)) (print (.arr vs)) := by
  rw [print]
  cases h with
  | nil => exact Spells.emptyList blank_nil
  | cons h hrest => exact Spells.list (spells_printItems (.cons h hrest) (List.cons_ne_nil _ _))

/-- Members of the same names, whose printed values are spelled. -/
def SpellsMember (m n : Text × Json) : Prop :=
  m.1 = n.1 ∧ Spells (.value n.2) (print m.2)

theorem spellsMember {name : Text} {v w : Json} (h : Spells (.value w) (print v)) :
    SpellsMember (name, v) (name, w) :=
  ⟨rfl, h⟩

theorem spells_printMembers : ∀ {ms ns : Members},
    List.Forall₂ SpellsMember ms ns → ms ≠ [] → Spells (.members ns) (printMembers ms)
  | [(name, v)], [(_, w)], .cons h .nil, _ => by
      obtain ⟨rfl, hw⟩ := h
      have hmember := Spells.lastMember blank_nil (quoted_quoteUnits name) blank_nil hw blank_nil
      rw [printMembers, quote]
      simpa using hmember
  | (name, v) :: next :: rest, (_, w) :: _ :: _, .cons h (.cons hnext hrest), _ => by
      obtain ⟨rfl, hw⟩ := h
      have hmembers := spells_printMembers (.cons hnext hrest) (List.cons_ne_nil _ _)
      have hmember := Spells.member blank_nil (quoted_quoteUnits name) blank_nil hw blank_nil hmembers
      rw [printMembers, quote]
      simpa using hmember

/-- A printed object spells the object that its members make. -/
theorem spells_obj {ms ns : Members} {v : Json} (h : List.Forall₂ SpellsMember ms ns)
    (hv : ofMembers ns = v) : Spells (.value v) (print (.obj ms)) := by
  rw [print, ← hv]
  cases h with
  | nil => exact Spells.emptyObject blank_nil
  | cons h hrest => exact Spells.object (spells_printMembers (.cons h hrest) (List.cons_ne_nil _ _))

/-! ## Values that print the same -/

theorem print_arr_congr {vs ws : List Json} (h : List.Forall₂ (fun v w => print v = print w) vs ws) :
    print (.arr vs) = print (.arr ws) := by
  have hitems : printItems vs = printItems ws := by
    induction h with
    | nil => rfl
    | cons hv hrest ih =>
        cases hrest with
        | nil => rw [printItems, printItems, hv]
        | cons hnext hrest => rw [printItems, printItems, hv, ih]
  rw [print, print, hitems]

theorem print_obj_congr {ms ns : Members}
    (h : List.Forall₂ (fun m n => m.1 = n.1 ∧ print m.2 = print n.2) ms ns) :
    print (.obj ms) = print (.obj ns) := by
  have hmembers : printMembers ms = printMembers ns := by
    induction h with
    | nil => rfl
    | @cons m n ms ns hm hrest ih =>
        obtain ⟨name, v⟩ := m
        obtain ⟨_, w⟩ := n
        obtain ⟨rfl, hv⟩ := hm
        simp only at hv
        cases hrest with
        | nil => rw [printMembers, printMembers, hv]
        | cons hnext hrest => rw [printMembers, printMembers, hv, ih]
  rw [print, print, hmembers]

end Relayout.Json

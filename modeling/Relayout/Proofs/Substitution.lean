import Mathlib.Data.List.Infix
import Relayout.Text.Substitution

/-!
# What filling a place puts into a text

A text is put in as it is exactly if none of its dollar signs has a meaning
(`expandDollars_eq_self_iff`). One that has a meaning is always noticed: what a
dollar sequence stands for begins differently, or it is shorter than the
sequence, and the units that are then swallowed are made up for by nothing that
comes later.
-/

namespace Relayout

namespace Text

/-! ## Dollar sequences -/

/-- The units that have a meaning behind a dollar sign. -/
def Special (u : UInt16) : Prop :=
  u = unit '$' ∨ u = unit '&' ∨ u = 0x60 ∨ u = 0x27

instance : DecidablePred Special := fun _ => inferInstanceAs (Decidable (_ ∨ _))

/-- No dollar sign of the text has a meaning. -/
def Plain (t : Text) : Prop :=
  t.IsChain fun u v => u = unit '$' → ¬Special v

instance : DecidablePred Plain := fun t => inferInstanceAs (Decidable (t.IsChain _))

theorem plain_cons {u : UInt16} {rest : Text} (hu : u ≠ unit '$') :
    Plain (u :: rest) ↔ Plain rest := by
  cases rest with
  | nil => exact iff_of_true (.singleton u) .nil
  | cons v rest => exact List.isChain_cons_cons.trans (and_iff_right fun heq => absurd heq hu)

/-- Behind a unit without a meaning the text goes on as if there were no dollar sign. -/
theorem plain_dollar {v : UInt16} {rest : Text} (hv : ¬Special v) :
    Plain (unit '$' :: v :: rest) ↔ Plain rest := by
  have hdollar : v ≠ unit '$' := fun heq => hv (Or.inl heq)
  exact List.isChain_cons_cons.trans ((and_iff_right fun _ => hv).trans (plain_cons hdollar))

theorem not_plain_special {v : UInt16} {rest : Text} (hv : Special v) :
    ¬Plain (unit '$' :: v :: rest) :=
  fun h => (List.isChain_cons_cons.mp h).1 rfl hv

theorem plain_of_not_mem {t : Text} (h : unit '$' ∉ t) : t.Plain := by
  induction t with
  | nil => exact .nil
  | cons u rest ih =>
      rw [List.mem_cons, not_or] at h
      exact (plain_cons (Ne.symm h.1)).mpr (ih h.2)

section

variable {before pattern after : Text}

/-- What a special unit stands for behind a dollar sign. -/
def standsFor (before pattern after : Text) (u : UInt16) : Text :=
  if u = unit '$' then [unit '$']
  else if u = unit '&' then pattern
  else if u = 0x60 then before
  else after

theorem expandDollars_cons {u : UInt16} (hu : u ≠ unit '$') (rest : Text) :
    expandDollars before pattern after (u :: rest) =
      u :: expandDollars before pattern after rest := by
  rw [expandDollars.eq_def]
  simp only [if_neg hu]

theorem expandDollars_special {v : UInt16} (hv : Special v) (rest : Text) :
    expandDollars before pattern after (unit '$' :: v :: rest) =
      standsFor before pattern after v ++ expandDollars before pattern after rest := by
  rw [expandDollars, if_pos rfl, standsFor]
  rcases hv with rfl | rfl | rfl | rfl <;> rfl

theorem expandDollars_other {v : UInt16} (hv : ¬Special v) (rest : Text) :
    expandDollars before pattern after (unit '$' :: v :: rest) =
      unit '$' :: v :: expandDollars before pattern after rest := by
  simp only [Special, not_or] at hv
  obtain ⟨h1, h2, h3, h4⟩ := hv
  rw [expandDollars, if_pos rfl]
  simp only [if_neg h1, if_neg h2, if_neg h3, if_neg h4]

/-- A text is read unit by unit, and a dollar sign together with the unit behind it. -/
theorem dollar_induct {motive : Text → Prop} (nil : motive []) (last : motive [unit '$'])
    (special : ∀ v rest, Special v → motive rest → motive (unit '$' :: v :: rest))
    (other : ∀ v rest, ¬Special v → motive rest → motive (unit '$' :: v :: rest))
    (plain : ∀ u rest, u ≠ unit '$' → motive rest → motive (u :: rest)) (t : Text) : motive t := by
  induction t using expandDollars.induct with
  | case1 => exact nil
  | case2 => exact last
  | case3 rest ih => exact special _ rest (by decide) ih
  | case4 rest _ ih => exact special _ rest (by decide) ih
  | case5 rest _ _ ih => exact special _ rest (by decide) ih
  | case6 rest _ _ _ ih => exact special _ rest (by decide) ih
  | case7 v rest h1 h2 h3 h4 ih => exact other v rest (by simp [Special, h1, h2, h3, h4]) ih
  | case8 u rest hu ih => exact plain u rest hu ih

/-- A text without dollar sequences is put in as it is. -/
theorem expandDollars_of_plain {t : Text} (h : t.Plain) :
    expandDollars before pattern after t = t := by
  induction t using dollar_induct with
  | nil => rfl
  | last => rfl
  | special v rest hv _ => exact absurd h (not_plain_special hv)
  | other v rest hv ih => rw [expandDollars_other hv, ih ((plain_dollar hv).mp h)]
  | plain u rest hu ih => rw [expandDollars_cons hu, ih ((plain_cons hu).mp h)]

/-! ### Texts with dollar sequences are changed -/

/-- The text begins with a unit, and with none of the given ones. -/
def Opens (units : Text) : Text → Prop
  | [] => False
  | u :: _ => u ∉ units

instance (units : Text) : DecidablePred (Opens units)
  | [] => inferInstanceAs (Decidable False)
  | u :: _ => inferInstanceAs (Decidable (u ∉ units))

theorem Opens.mono {units others t : Text} (h : Opens units t) (hsub : ∀ u ∈ others, u ∈ units) :
    Opens others t := by
  cases t with
  | nil => exact h.elim
  | cons u rest => exact fun hu => h (hsub u hu)

theorem Opens.append {units t : Text} (h : Opens units t) (rest : Text) :
    Opens units (t ++ rest) := by
  cases t with
  | nil => exact h.elim
  | cons u t => exact h

theorem Opens.nil_of_starts {units t : Text} (h : Opens units t) (hstarts : units <+: t) :
    units = [] := by
  cases units with
  | nil => rfl
  | cons u units =>
      cases t with
      | nil => exact h.elim
      | cons c t =>
          exact absurd (List.cons_prefix_cons.mp hstarts).1 (List.ne_of_not_mem_cons h).symm

/-- The units of dollar sequences that may stand for nothing, or for one unit only. -/
def marks : Text :=
  [unit '$', 0x27]

/-- Two texts part ways, and up to there every rest of the first one is as stated. -/
inductive Diverges (N : Text → Prop) : Text → Text → Prop
  | short {y : UInt16} {r : Text} : Diverges N [] (y :: r)
  | here {x y : UInt16} {l r : Text} (hN : N (x :: l)) (hne : x ≠ y) : Diverges N (x :: l) (y :: r)
  | step {u : UInt16} {l r : Text} (hN : N (u :: l)) (h : Diverges N l r) :
      Diverges N (u :: l) (u :: r)

section

variable {N : Text → Prop} {l r : Text}

theorem Diverges.ne (h : Diverges N l r) : l ≠ r := by
  induction h with
  | short => simp
  | here _ hne => simp [hne]
  | step _ _ ih => simpa using ih

/-- They part ways before the first one comes to a pattern that none of its rests starts with. -/
theorem Diverges.ne_of_split {p b a : Text} (h : Diverges (fun t => ¬p <+: t) l r)
    (hp : p ≠ []) (hl : l = b ++ (p ++ a)) (z : Text) : b ++ z ≠ r := by
  induction h generalizing b with
  | short => simp [hp] at hl
  | here hN hne =>
      cases b with
      | nil => exact absurd ⟨a, hl.symm⟩ hN
      | cons x b =>
          rw [List.cons_append, List.cons.injEq] at hl
          rw [← hl.1]
          simp [hne]
  | step hN _ ih =>
      cases b with
      | nil => exact absurd ⟨a, hl.symm⟩ hN
      | cons x b =>
          rw [List.cons_append, List.cons.injEq] at hl
          rw [← hl.1]
          simpa using ih hl.2

/-- A text that begins without a mark is not one that begins with a mark. -/
theorem diverges_opens {s : Text} (hs : s ⊆ marks) (hne : s ≠ []) (hl : Opens marks l) (hN : N l)
    (y : Text) : Diverges N l (s ++ y) := by
  cases s with
  | nil => exact absurd rfl hne
  | cons u s =>
      cases l with
      | nil => exact hl.elim
      | cons c l => exact .here hN fun heq => hl (heq ▸ (List.cons_subset.mp hs).1)

/-- The same where it may also have come to its end. -/
theorem diverges_end {s : Text} (hs : s ⊆ marks) (hne : s ≠ []) (hl : l = [] ∨ Opens marks l)
    (hN : l ≠ [] → N l) (y : Text) : Diverges N l (s ++ y) := by
  rcases hl with rfl | hl
  · cases s with
    | nil => exact absurd rfl hne
    | cons u s => exact .short
  · refine diverges_opens hs hne hl (hN ?_) y
    rintro rfl
    exact hl

/-- A dollar sign behind marks: they go on together with as many marks as before. -/
theorem diverges_dollar {s : Text} (hs : s ⊆ marks) (hN : ∀ rest, N (unit '$' :: rest))
    (h : ∀ s', s' ⊆ marks → s'.length = s.length → Diverges N l (s' ++ r)) :
    Diverges N (unit '$' :: l) (s ++ unit '$' :: r) := by
  cases s with
  | nil => exact .step (hN _) (h [] (List.nil_subset _) rfl)
  | cons u s =>
      by_cases hu : u = unit '$'
      · subst hu
        obtain ⟨hdollar, hs⟩ := List.cons_subset.mp hs
        have hnext := h (s ++ [unit '$'])
          (List.append_subset.mpr ⟨hs, List.cons_subset.mpr ⟨hdollar, List.nil_subset _⟩⟩)
          (by simp)
        rw [List.append_assoc] at hnext
        exact .step (hN _) hnext
      · exact .here (hN _) (Ne.symm hu)

end

/-- What the expansion of a text is made of is told from a mark by its first
unit, and as is stated of its rests where it is not a mark that they begin with. -/
structure Clear (N : Text → Prop) (before pattern after x t : Text) : Prop where
  before_opens : Opens marks before
  pattern_opens : Opens marks pattern
  after_opens : after = [] ∨ Opens marks after
  next_opens : x = [] ∨ Opens marks x
  of_dollar : ∀ rest, N (unit '$' :: rest)
  of_before : ∀ rest, N (before ++ rest)
  of_pattern : ∀ rest, N (pattern ++ rest)
  of_after : after ≠ [] → ∀ rest, N (after ++ rest)
  of_next : x ≠ [] → N x
  of_plain : ∀ u rest, u ≠ unit '$' → u :: rest <:+ t →
    N (u :: (expandDollars before pattern after rest ++ x))

theorem Clear.of_suffix {N : Text → Prop} {x t rest : Text}
    (h : Clear N before pattern after x t) (hrest : rest <:+ t) :
    Clear N before pattern after x rest :=
  { h with of_plain := fun u l hu hl => h.of_plain u l hu (hl.trans hrest) }

/-- A text with a dollar sequence is changed. `s` is what its expansion lags
behind: marks, as many as it has swallowed, and once there is one there will
always be one. -/
theorem diverges_expandDollars {N : Text → Prop} {t x : Text}
    (clear : Clear N before pattern after x t) {s : Text} (hs : s ⊆ marks) (h : s = [] → ¬t.Plain)
    (y : Text) : Diverges N (expandDollars before pattern after t ++ x) (s ++ (t ++ y)) := by
  have hmore : ∀ {v : UInt16}, v ∈ marks → ∀ {s : Text}, s ⊆ marks → s ++ [v] ⊆ marks :=
    fun hv _ hs => List.append_subset.mpr ⟨hs, List.cons_subset.mpr ⟨hv, List.nil_subset _⟩⟩
  have hdollar : unit '$' ∈ marks := by decide
  induction t using dollar_induct generalizing s with
  | nil => exact diverges_end hs (fun hnil => h hnil .nil) clear.next_opens clear.of_next y
  | last =>
      have hne : s ≠ [] := fun hnil => h hnil (.singleton _)
      refine diverges_dollar hs clear.of_dollar fun s' hs' hlen => ?_
      refine diverges_end hs' (fun hnil => hne ?_) clear.next_opens clear.of_next y
      exact List.eq_nil_of_length_eq_zero (hlen ▸ congrArg List.length hnil)
  | special v rest hv ih =>
      rw [expandDollars_special hv, List.append_assoc]
      replace ih := @ih (clear.of_suffix ((List.suffix_cons v rest).trans (List.suffix_cons _ _)))
      have hopens : ∀ piece, Opens marks piece → (∀ rest, N (piece ++ rest)) → ∀ l : Text,
          Diverges N (piece ++ l) (s ++ (unit '$' :: v :: rest ++ y)) := by
        intro piece hpiece hN l
        have hnow := diverges_opens (hmore hdollar hs) (by simp) (hpiece.append l) (hN l)
          (v :: rest ++ y)
        rwa [List.append_assoc] at hnow
      rcases hv with rfl | rfl | rfl | rfl
      · refine diverges_dollar hs clear.of_dollar fun s' hs' _ => ?_
        have hnext := ih (hmore hdollar hs') (by simp)
        rwa [List.append_assoc] at hnext
      · exact hopens pattern clear.pattern_opens clear.of_pattern _
      · exact hopens before clear.before_opens clear.of_before _
      · rcases clear.after_opens with hafter | hafter
        · have hnext := ih (hmore (v := 0x27) (by decide) (hmore hdollar hs)) (by simp)
          rw [List.append_assoc, List.append_assoc] at hnext
          subst hafter
          exact hnext
        · refine hopens after hafter (clear.of_after ?_) _
          rintro rfl
          exact hafter
  | other v rest hv ih =>
      rw [expandDollars_other hv]
      have hsuffix : v :: rest <:+ unit '$' :: v :: rest := List.suffix_cons _ _
      have hv' : v ∉ marks := by
        simp only [Special, not_or] at hv
        simp [marks, hv]
      have hN := clear.of_plain v rest (fun heq => hv (Or.inl heq)) hsuffix
      refine diverges_dollar hs clear.of_dollar fun s' hs' hlen => ?_
      cases s' with
      | nil =>
          refine .step hN (ih (clear.of_suffix ((List.suffix_cons v rest).trans hsuffix))
            (List.nil_subset _) fun _ hplain => ?_)
          exact h (List.eq_nil_of_length_eq_zero hlen.symm) ((plain_dollar hv).mpr hplain)
      | cons u s' =>
          have hopens : Opens marks (v :: (expandDollars before pattern after rest ++ x)) := hv'
          exact diverges_opens hs' (List.cons_ne_nil u s') hopens hN _
  | plain u rest hu ih =>
      rw [expandDollars_cons hu]
      have hN := clear.of_plain u rest hu List.suffix_rfl
      replace ih := @ih (clear.of_suffix (List.suffix_cons u rest))
      cases s with
      | nil =>
          exact .step hN (ih (List.nil_subset _) fun _ hplain => h rfl ((plain_cons hu).mpr hplain))
      | cons w s =>
          by_cases huw : u = w
          · subst huw
            obtain ⟨hmark, hs⟩ := List.cons_subset.mp hs
            have hnext := ih (hmore hmark hs) (by simp)
            rw [List.append_assoc] at hnext
            exact .step hN hnext
          · exact .here hN huw

/-- No rest of an expanded text begins with more of a pattern than the text
does, if what dollar sequences stand for and what follows the text begin with
none of its units. -/
theorem prefix_of_expandDollars {q t x : Text} (hdollar : unit '$' ∉ q) (hbefore : Opens q before)
    (hpattern : Opens q pattern) (hafter : Opens q after) (hx : Opens q x)
    (h : q <+: expandDollars before pattern after t ++ x) : q <+: t := by
  have hsign : ∀ {q l : Text}, unit '$' ∉ q → q <+: unit '$' :: l → q = [] :=
    fun {q l} hnot hstarts => Opens.nil_of_starts (t := unit '$' :: l) hnot hstarts
  induction t using dollar_induct generalizing q with
  | nil => exact hx.nil_of_starts h ▸ List.nil_prefix
  | last => exact hsign hdollar h ▸ List.nil_prefix
  | special v rest hv _ =>
      rw [expandDollars_special hv, List.append_assoc] at h
      rcases hv with rfl | rfl | rfl | rfl
      · exact hsign hdollar h ▸ List.nil_prefix
      · exact (hpattern.append _).nil_of_starts h ▸ List.nil_prefix
      · exact (hbefore.append _).nil_of_starts h ▸ List.nil_prefix
      · exact (hafter.append _).nil_of_starts h ▸ List.nil_prefix
  | other v rest hv _ =>
      rw [expandDollars_other hv] at h
      exact hsign hdollar h ▸ List.nil_prefix
  | plain u rest hu ih =>
      rw [expandDollars_cons hu] at h
      cases q with
      | nil => exact List.nil_prefix
      | cons w q =>
          obtain ⟨rfl, htail⟩ := List.cons_prefix_cons.mp h
          have hsub : ∀ v ∈ q, v ∈ w :: q := fun v hv => List.mem_cons_of_mem w hv
          exact List.cons_prefix_cons.mpr ⟨rfl, ih (List.not_mem_of_not_mem_cons hdollar)
            (hbefore.mono hsub) (hpattern.mono hsub) (hafter.mono hsub) (hx.mono hsub) htail⟩

/-- **A text is put in as it is exactly if none of its dollar signs has a meaning.** -/
theorem expandDollars_eq_self_iff (hbefore : Opens marks before) (hpattern : Opens marks pattern)
    (hafter : after = [] ∨ Opens marks after) {t : Text} :
    expandDollars before pattern after t = t ↔ t.Plain := by
  refine ⟨fun heq => ?_, expandDollars_of_plain⟩
  by_contra hplain
  have clear : Clear (fun _ => True) before pattern after [] t :=
    { before_opens := hbefore, pattern_opens := hpattern, after_opens := hafter
      next_opens := Or.inl rfl
      of_dollar := by simp, of_before := by simp, of_pattern := by simp, of_after := by simp
      of_next := by simp, of_plain := by simp }
  have hne := (diverges_expandDollars clear (List.nil_subset _) (fun _ => hplain) []).ne
  rw [List.append_nil, List.append_nil, List.nil_append] at hne
  exact hne heq

end

/-! ## First occurrences -/

/-- What stands before a first occurrence holds no other. -/
theorem exists_first {p t : Text} (hp : p ≠ []) (h : p <:+: t) :
    ∃ b a, t = b ++ (p ++ a) ∧ ¬p <:+: b := by
  induction t with
  | nil => exact absurd (List.infix_nil.mp h) hp
  | cons u t ih =>
      by_cases hstarts : p <+: u :: t
      · obtain ⟨a, ha⟩ := hstarts
        exact ⟨[], a, ha.symm, fun hnil => hp (List.infix_nil.mp hnil)⟩
      · obtain ⟨b, a, rfl, hb⟩ := ih ((List.infix_cons_iff.mp h).resolve_left hstarts)
        refine ⟨u :: b, a, rfl, fun hholds => ?_⟩
        rcases List.infix_cons_iff.mp hholds with hu | hrest
        · exact hstarts (hu.trans ⟨p ++ a, rfl⟩)
        · exact hb hrest

section

variable {u : UInt16} {q : Text}

/-- A pattern whose first unit does not come back in it does not overlap with itself. -/
theorem splitFirst?_append {b : Text} (hu : u ∉ q) (hb : ¬u :: q <:+: b) (a : Text) :
    splitFirst? (u :: q) (b ++ (u :: q ++ a)) = some (b, a) := by
  induction b with
  | nil => simp [splitFirst?, List.isPrefixOf_iff_prefix]
  | cons x b ih =>
      have hrest := ih fun hholds => hb (List.infix_cons_iff.mpr (Or.inr hholds))
      have hnot : ¬u :: q <+: x :: (b ++ (u :: q ++ a)) := by
        rintro ⟨c, hc⟩
        rw [← List.cons_append] at hc
        rcases List.append_eq_append_iff.mp hc with
          ⟨d, hd, -⟩ | ⟨d, hd, hrest⟩
        · exact hb (hd ▸ List.infix_append' [] _ _)
        · cases d with
          | nil => exact hb (by rw [hd, List.append_nil])
          | cons y d =>
              obtain ⟨rfl, -⟩ := List.cons.inj hrest
              obtain ⟨-, rfl⟩ := List.cons.inj hd
              exact hu (by simp)
      rw [List.cons_append, splitFirst?, if_neg (by rwa [ List.isPrefixOf_iff_prefix]), hrest]
      rfl

/-- A literal without the first unit of a pattern brings no occurrence of it. -/
theorem infix_of_literal_append {l b : Text} (hl : u ∉ l) (h : u :: q <:+: l ++ b) :
    u :: q <:+: b := by
  induction l with
  | nil => exact h
  | cons x l ih =>
      rcases List.infix_cons_iff.mp h with hstarts | hholds
      · exact absurd (List.cons_prefix_cons.mp hstarts).1 (List.ne_of_not_mem_cons hl)
      · exact ih (List.not_mem_of_not_mem_cons hl) hholds

/-- Nor does one without its last unit, behind a text. -/
theorem infix_of_append_literal {l b : Text} (hl : u ∉ l) (h : q ++ [u] <:+: b ++ l) :
    q ++ [u] <:+: b := by
  rw [← List.reverse_infix, List.reverse_append, List.reverse_append] at h
  rw [← List.reverse_infix, List.reverse_append]
  exact infix_of_literal_append (fun hmem => hl (List.mem_reverse.mp hmem)) h

end

end Text

end Relayout

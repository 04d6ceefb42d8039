import Relayout.Failure.Cause
import Relayout.Proofs.Notation
import Relayout.Proofs.Substitution

/-!
# What a diagnostic quotes

Every cause has one diagnostic, and its message is meant to be the template of
the cause's code with the facts of the cause in its places. It is filled one
parameter after the other (`Diagnostic.fill`), so the message is compared with
the template read once, from left to right (`Diagnostic.quote`). The texts of a
cause are names that users choose, and two things happen to them on the way:

* A dollar sequence in a text is not taken literally. If no text holds the place
  of a later parameter, the message quotes all of them verbatim exactly if none
  has a dollar sequence.
* A text that holds the place of a later parameter is filled in its stead. Then
  the later text lands inside the earlier one, and its own place stays.

Numbers and the names of the two sides have neither dollar signs nor braces.
-/

namespace Relayout

namespace Diagnostic

open Text (Opens marks expandDollars)

/-- Read a template from left to right and put the values where their names
stand. `skip` units still belong to the place that has just been filled. -/
def quoteFrom (params : Json.Members) : (skip : Nat) → Text → Text
  | _, [] => []
  | skip + 1, _ :: rest => quoteFrom params skip rest
  | 0, u :: rest =>
    match params.find? fun (key, _) => (place key).isPrefixOf (u :: rest) with
    | some (key, value) => value.display ++ quoteFrom params (place key).length.pred rest
    | none => u :: quoteFrom params 0 rest

/-- A template that quotes its parameters verbatim, each independently of the others. -/
def quote (params : Json.Members) (template : Text) : Text :=
  quoteFrom params 0 template

/-- No parameter's text has a dollar sequence. -/
def Plain (params : Json.Members) : Prop :=
  ∀ param ∈ params, param.2.display.Plain

/-- No parameter's text holds the place of a later one. -/
def Separate (params : Json.Members) : Prop :=
  params.Pairwise fun earlier later => ¬place later.1 <:+: earlier.2.display

instance : DecidablePred Plain := fun params =>
  inferInstanceAs (Decidable (∀ param ∈ params, param.2.display.Plain))

instance : DecidablePred Separate := fun params =>
  inferInstanceAs (Decidable (params.Pairwise _))

/-- What filling a template comes to. -/
structure Fills (template : Text) (params : Json.Members) : Prop where
  verbatim : Separate params → (fill template params = quote params template ↔ Plain params)
  moved : Plain params → ¬Separate params → ∃ p q before after, params = [p, q] ∧
    p.2.display = before ++ (place q.1 ++ after) ∧ ¬place q.1 <:+: before ∧
    fill template params =
      quote [(p.1, .str (before ++ (q.2.display ++ after))), (q.1, .str (place q.1))] template

/-! ## Places -/

section

variable {key : Text}

theorem place_ne_nil (key : Text) : place key ≠ [] :=
  List.cons_ne_nil _ _

theorem opens_place {units : Text} (h : Text.unit '\x7b' ∉ units) : Opens units (place key) :=
  h

/-- What follows the first unit of a place. -/
theorem not_mem_rest {u : UInt16} (h : u ∉ key) (hu : u ≠ Text.unit '\x7d') :
    u ∉ key ++ [Text.unit '\x7d'] := by
  rw [List.mem_append, not_or, List.mem_singleton]
  exact ⟨h, hu⟩

/-- A place that stands first is filled with the text as its dollar sequences have it. -/
theorem replaceFirst_place {before : Text} (hkey : Text.unit '\x7b' ∉ key)
    (hbefore : ¬place key <:+: before) (insert after : Text) :
    Text.replaceFirst (place key) insert (before ++ (place key ++ after)) =
      before ++ (expandDollars before (place key) after insert ++ after) := by
  rw [Text.replaceFirst, place, Text.splitFirst?_append (not_mem_rest hkey (by decide)) hbefore]
  exact List.append_assoc _ _ _

/-- Of two places neither is the beginning of the other. -/
theorem place_not_start {other : Text} (hkey : Text.unit '\x7d' ∉ key)
    (hother : Text.unit '\x7d' ∉ other) (hne : key ≠ other) (rest : Text) :
    ¬place key <+: place other ++ rest := by
  rintro ⟨tail, htail⟩
  rw [place, place, List.cons_append, List.cons_append, List.cons.injEq, List.append_assoc,
    List.append_assoc] at htail
  obtain ⟨-, hsplit⟩ := htail
  rcases List.append_eq_append_iff.mp hsplit with ⟨c, rfl, hc⟩ | ⟨c, rfl, hc⟩
  · cases c with
    | nil => exact hne (List.append_nil key).symm
    | cons u c =>
        obtain ⟨rfl, -⟩ := List.cons.inj hc
        exact hother (by simp)
  · cases c with
    | nil => exact hne (List.append_nil other)
    | cons u c =>
        obtain ⟨rfl, -⟩ := List.cons.inj hc
        exact hkey (by simp)

/-- A literal in front brings no place with it. -/
theorem place_of_literal_append {lead t : Text} (hlead : Text.unit '\x7b' ∉ lead)
    (h : place key <:+: lead ++ t) : place key <:+: t :=
  Text.infix_of_literal_append hlead h

/-- Nor does a literal behind. -/
theorem place_of_append_literal {tail t : Text} (htail : Text.unit '\x7d' ∉ tail)
    (h : place key <:+: t ++ tail) : place key <:+: t :=
  Text.infix_of_append_literal (q := Text.unit '\x7b' :: key) htail h

end

/-! ## Reading a template -/

/-- A template from the literals and the names of the places behind them. -/
def bare (tail : Text) : List (Text × Text) → Text
  | [] => tail
  | (literal, key) :: rest => literal ++ (place key ++ bare tail rest)

/-- The same with the values in their places. -/
def filled (tail : Text) : List (Text × Text × Json) → Text
  | [] => tail
  | (literal, _, value) :: rest => literal ++ (value.display ++ filled tail rest)

/-- The places of a template without the values. -/
def places (parts : List (Text × Text × Json)) : List (Text × Text) :=
  parts.map fun part => (part.1, part.2.1)

/-- A template whose literals and places can be told apart. -/
structure Legible (template tail : Text) (parts : List (Text × Text)) : Prop where
  template_eq : template = bare tail parts
  literals : ∀ part ∈ parts, Text.unit '\x7b' ∉ part.1
  opens : ∀ part ∈ parts, Text.unit '\x7b' ∉ part.2
  closes : ∀ part ∈ parts, Text.unit '\x7d' ∉ part.2
  distinct : (parts.map Prod.snd).Nodup
  tail_open : Text.unit '\x7b' ∉ tail

instance (template tail : Text) (parts : List (Text × Text)) :
    Decidable (Legible template tail parts) :=
  decidable_of_iff (_ ∧ _ ∧ _ ∧ _ ∧ _ ∧ _)
    ⟨fun ⟨eq, literals, opens, closes, distinct, tail⟩ =>
      ⟨eq, literals, opens, closes, distinct, tail⟩,
      fun h => ⟨h.template_eq, h.literals, h.opens, h.closes, h.distinct, h.tail_open⟩⟩

section

variable {params : Json.Members}

theorem quote_nil : quote params [] = [] :=
  rfl

theorem quoteFrom_skip (l t : Text) : quoteFrom params l.length (l ++ t) = quote params t := by
  induction l with
  | nil => rfl
  | cons u l ih => exact ih

theorem quote_literal {literal : Text} (h : Text.unit '\x7b' ∉ literal) (t : Text) :
    quote params (literal ++ t) = literal ++ quote params t := by
  induction literal with
  | nil => rfl
  | cons u literal ih =>
      rw [List.mem_cons, not_or] at h
      have hnone : (params.find? fun (key, _) => (place key).isPrefixOf (u :: (literal ++ t))) =
          none := by
        refine List.find?_eq_none.mpr fun param _ => ?_
        simp [place, h.1]
      rw [List.cons_append, quote, quoteFrom, hnone, List.cons_append, ← ih h.2]
      rfl

theorem quote_place {key : Text} {value : Json}
    (hfind : (params.find? fun param => param.1 = key) = some (key, value))
    (hcloses : ∀ param ∈ params, Text.unit '\x7d' ∉ param.1) (t : Text) :
    quote params (place key ++ t) = value.display ++ quote params t := by
  have hkey := hcloses _ (List.mem_of_find?_eq_some hfind)
  have hsame : (params.find? fun (other, _) => (place other).isPrefixOf (place key ++ t)) =
      params.find? fun param => param.1 = key := by
    refine List.find?_congr fun param hmem => ?_
    rw [Bool.eq_iff_iff, List.isPrefixOf_iff_prefix, decide_eq_true_eq]
    constructor
    · intro hstarts
      by_contra hne
      exact place_not_start (hcloses param hmem) hkey hne t hstarts
    · rintro rfl
      exact List.prefix_append _ _
  have hlength : (place key).length.pred = (key ++ [Text.unit '\x7d']).length := rfl
  rw [hfind] at hsame
  rw [place, List.cons_append, quote, quoteFrom, ← List.cons_append, ← place, hsame]
  simp only [hlength, quoteFrom_skip]

theorem find?_of_distinct (h : (params.map Prod.fst).Nodup) {param : Text × Json}
    (hmem : param ∈ params) : (params.find? fun other => other.1 = param.1) = some param := by
  induction params with
  | nil => cases hmem
  | cons first rest ih =>
      obtain ⟨hfirst, hrest⟩ := List.nodup_cons.mp h
      rcases List.mem_cons.mp hmem with rfl | hmem
      · simp
      · have hne : first.1 ≠ param.1 := fun heq => hfirst (heq ▸ List.mem_map_of_mem hmem)
        rw [List.find?_cons_of_neg (by simpa using hne)]
        exact ih hrest hmem

end

section

variable {template tail : Text} (parts : List (Text × Text × Json))

theorem Legible.names (h : Legible template tail (places parts)) :
    ((parts.map Prod.snd).map Prod.fst).Nodup := by
  simpa [places, Function.comp_def] using h.distinct

/-- Reading finds every place and puts the value of its name there. -/
theorem Legible.quote_eq (h : Legible template tail (places parts)) :
    quote (parts.map Prod.snd) template = filled tail parts := by
  have hcloses : ∀ param ∈ parts.map Prod.snd, Text.unit '\x7d' ∉ param.1 := by
    intro param hmem
    obtain ⟨part, hpart, rfl⟩ := List.mem_map.mp hmem
    exact h.closes _ (List.mem_map_of_mem hpart)
  -- the parameters stay as they are while the template is read part by part
  have hread : ∀ rest : List (Text × Text × Json), (∀ part ∈ rest, part ∈ parts) →
      quote (parts.map Prod.snd) (bare tail (places rest)) = filled tail rest := by
    intro rest hrest
    induction rest with
    | nil =>
        have htail : quote (parts.map Prod.snd) (tail ++ []) = tail ++ quote _ [] :=
          quote_literal h.tail_open []
        rwa [quote_nil, List.append_nil] at htail
    | cons part rest ih =>
        obtain ⟨hpart, hrest⟩ := List.forall_mem_cons.mp hrest
        have hfind := find?_of_distinct (h.names parts) (List.mem_map_of_mem (f := Prod.snd) hpart)
        show quote _ (part.1 ++ (place part.2.1 ++ bare tail (places rest))) = _
        rw [quote_literal (h.literals _ (List.mem_map_of_mem hpart)),
          quote_place hfind hcloses, ih hrest]
        rfl
  rw [h.template_eq]
  exact hread parts fun _ hmem => hmem

end

/-! ## Templates with one place -/

/-- A template that ends with its only place. -/
structure OnePlace (template lead key : Text) : Prop where
  legible : Legible template [] [(lead, key)]
  lead_opens : Opens marks lead

theorem OnePlace.fills {template lead key : Text} (shape : OnePlace template lead key)
    (value : Json) : Fills template [(key, value)] where
  verbatim _ := by
    have hopen : Text.unit '\x7b' ∉ lead := shape.legible.literals _ List.mem_cons_self
    have hfill : fill template [(key, value)] =
        lead ++ (expandDollars lead (place key) [] value.display ++ []) :=
      shape.legible.template_eq ▸ replaceFirst_place (shape.legible.opens _ List.mem_cons_self)
        (fun h => hopen (h.mem List.mem_cons_self)) value.display []
    have hquote : quote [(key, value)] template = lead ++ (value.display ++ []) :=
      Legible.quote_eq [(lead, key, value)] shape.legible
    rw [hfill, hquote, List.append_right_inj, List.append_left_inj,
      Text.expandDollars_eq_self_iff shape.lead_opens (opens_place (by decide)) (Or.inl rfl)]
    simp [Plain]
  moved _ hseparate := absurd (List.pairwise_singleton _ _) hseparate

/-! ## Templates with two places -/

/-- Literals that begin neither like the second place nor like a dollar sequence. -/
structure Distinct (lead mid key₂ tail : Text) : Prop where
  lead_opens : Opens (marks ++ place key₂) lead
  mid_opens : Opens (marks ++ place key₂) mid
  mid_close : Text.unit '\x7d' ∉ mid
  key_dollar : Text.unit '$' ∉ key₂
  tail_opens : tail = [] ∨ Opens marks tail

instance (lead mid key₂ tail : Text) : Decidable (Distinct lead mid key₂ tail) :=
  decidable_of_iff (_ ∧ _ ∧ _ ∧ _ ∧ _)
    ⟨fun ⟨lead, mid, close, dollar, tail⟩ => ⟨lead, mid, close, dollar, tail⟩,
      fun h => ⟨h.lead_opens, h.mid_opens, h.mid_close, h.key_dollar, h.tail_opens⟩⟩

/-- A template with two places. -/
structure TwoPlaces (template lead key₁ mid key₂ tail : Text) : Prop
    extends Distinct lead mid key₂ tail where
  legible : Legible template tail [(lead, key₁), (mid, key₂)]

namespace TwoPlaces

variable {template lead key₁ mid key₂ tail : Text}
  (shape : TwoPlaces template lead key₁ mid key₂ tail)

include shape

theorem template_eq : template = lead ++ (place key₁ ++ (mid ++ (place key₂ ++ tail))) :=
  shape.legible.template_eq

theorem lead_open : Text.unit '\x7b' ∉ lead :=
  shape.legible.literals _ List.mem_cons_self

theorem first_open : Text.unit '\x7b' ∉ key₁ :=
  shape.legible.opens _ List.mem_cons_self

theorem second_open : Text.unit '\x7b' ∉ key₂ :=
  shape.legible.opens (mid, key₂) (by simp)

/-- What follows the first place. -/
theorem rest_opens : Opens (marks ++ place key₂) (mid ++ (place key₂ ++ tail)) :=
  shape.mid_opens.append _

/-- Nothing in an expanded first text begins with the second place, but what the text holds. -/
theorem clear {text : Text} (htext : ¬place key₂ <:+: text) :
    Text.Clear (fun t => ¬place key₂ <+: t) lead (place key₁) (mid ++ (place key₂ ++ tail))
      (mid ++ (place key₂ ++ tail)) text := by
  have hmarks : ∀ u ∈ marks, u ∈ marks ++ place key₂ := fun u hu => List.mem_append_left _ hu
  have hplace : ∀ u ∈ place key₂, u ∈ marks ++ place key₂ := fun u hu => List.mem_append_right _ hu
  have hname : ∀ u ∈ key₂ ++ [Text.unit '\x7d'], u ∈ marks ++ place key₂ :=
    fun u hu => hplace u (List.mem_cons_of_mem _ hu)
  have hnot : ∀ {t : Text}, Opens (marks ++ place key₂) t → ¬place key₂ <+: t :=
    fun ht hstarts => place_ne_nil key₂ ((ht.mono hplace).nil_of_starts hstarts)
  have hopens := shape.rest_opens
  constructor
  case before_opens => exact shape.lead_opens.mono hmarks
  case pattern_opens => exact opens_place (by decide)
  case after_opens => exact Or.inr (hopens.mono hmarks)
  case next_opens => exact Or.inr (hopens.mono hmarks)
  case of_dollar =>
    intro rest hstarts
    exact absurd (List.cons_prefix_cons.mp hstarts).1 (by decide)
  case of_before => exact fun rest => hnot (shape.lead_opens.append rest)
  case of_pattern =>
    have hne : key₂ ≠ key₁ := fun heq => by simpa [heq] using shape.legible.distinct
    exact place_not_start (shape.legible.closes (mid, key₂) (by simp))
      (shape.legible.closes (lead, key₁) (by simp)) hne
  case of_after => exact fun _ rest => hnot (hopens.append rest)
  case of_next => exact fun _ => hnot hopens
  case of_plain =>
    intro u rest _ hsuffix hstarts
    obtain ⟨rfl, hrest⟩ := List.cons_prefix_cons.mp hstarts
    have hstart := Text.prefix_of_expandDollars (not_mem_rest shape.key_dollar (by decide))
      (shape.lead_opens.mono hname) (opens_place (not_mem_rest shape.second_open (by decide)))
      (hopens.mono hname) (hopens.mono hname) hrest
    exact htext ((List.cons_prefix_cons.mpr ⟨rfl, hstart⟩).isInfix.trans hsuffix.isInfix)

/-- The second text lands at the first place of its name that there is once the
first text is in. -/
theorem fill_eq {v₁ v₂ : Json} {before after : Text}
    (hsplit : expandDollars lead (place key₁) (mid ++ (place key₂ ++ tail)) v₁.display ++
      (mid ++ (place key₂ ++ tail)) = before ++ (place key₂ ++ after))
    (hfirst : ¬place key₂ <:+: before) :
    fill template [(key₁, v₁), (key₂, v₂)] =
      lead ++ (before ++
        (expandDollars (lead ++ before) (place key₂) after v₂.display ++ after)) := by
  have hlead : ¬place key₁ <:+: lead := fun h => shape.lead_open (h.mem List.mem_cons_self)
  have hbefore : ¬place key₂ <:+: lead ++ before := fun h =>
    hfirst (place_of_literal_append shape.lead_open h)
  show Text.replaceFirst _ _ (Text.replaceFirst _ _ _) = _
  rw [shape.template_eq, replaceFirst_place shape.first_open hlead, hsplit, ← List.append_assoc,
    replaceFirst_place shape.second_open hbefore, List.append_assoc]

/-- A dollar sequence in the first text is not made up for by the second text, wherever that
lands. -/
theorem fill_ne {v₁ v₂ : Json} (hplain : ¬v₁.display.Plain)
    (htext : ¬place key₂ <:+: v₁.display) :
    fill template [(key₁, v₁), (key₂, v₂)] ≠
      lead ++ (v₁.display ++ (mid ++ (v₂.display ++ tail))) := by
  have hdiverges := Text.diverges_expandDollars (shape.clear htext) (List.nil_subset _)
    (fun _ => hplain) (mid ++ (v₂.display ++ tail))
  have hholds : place key₂ <:+:
      expandDollars lead (place key₁) (mid ++ (place key₂ ++ tail)) v₁.display ++
        (mid ++ (place key₂ ++ tail)) :=
    (List.prefix_append _ _).isInfix.trans
      ((List.suffix_append mid _).trans (List.suffix_append _ _)).isInfix
  obtain ⟨before, after, hsplit, hfirst⟩ := Text.exists_first (place_ne_nil key₂) hholds
  rw [shape.fill_eq hsplit hfirst, ne_eq, List.append_right_inj]
  exact hdiverges.ne_of_split (place_ne_nil key₂) hsplit _

/-- A plain first text without the second place leaves the second text to its own place. -/
theorem fill_apart {v₁ v₂ : Json} (hplain : v₁.display.Plain)
    (htext : ¬place key₂ <:+: v₁.display) :
    fill template [(key₁, v₁), (key₂, v₂)] =
        lead ++ (v₁.display ++ (mid ++ (v₂.display ++ tail))) ↔ v₂.display.Plain := by
  have hfirst : ¬place key₂ <:+: v₁.display ++ mid := fun h =>
    htext (place_of_append_literal shape.mid_close h)
  have hsplit : expandDollars lead (place key₁) (mid ++ (place key₂ ++ tail)) v₁.display ++
      (mid ++ (place key₂ ++ tail)) = v₁.display ++ mid ++ (place key₂ ++ tail) := by
    rw [Text.expandDollars_of_plain hplain, List.append_assoc]
  have hlead : Opens marks (lead ++ (v₁.display ++ mid)) :=
    (shape.lead_opens.mono fun u hu => List.mem_append_left _ hu).append _
  rw [shape.fill_eq hsplit hfirst, List.append_assoc, List.append_right_inj, List.append_right_inj,
    List.append_right_inj, List.append_left_inj,
    Text.expandDollars_eq_self_iff hlead (opens_place (by decide)) shape.tail_opens]

/-- A plain first text that holds the second place receives the second text. -/
theorem fill_moved {v₁ v₂ : Json} (hplain₁ : v₁.display.Plain) (hplain₂ : v₂.display.Plain)
    {before after : Text} (hsplit : v₁.display = before ++ (place key₂ ++ after))
    (hfirst : ¬place key₂ <:+: before) :
    fill template [(key₁, v₁), (key₂, v₂)] =
      lead ++ (before ++ (v₂.display ++ after) ++ (mid ++ (place key₂ ++ tail))) := by
  have hwhole : expandDollars lead (place key₁) (mid ++ (place key₂ ++ tail)) v₁.display ++
      (mid ++ (place key₂ ++ tail)) =
      before ++ (place key₂ ++ (after ++ (mid ++ (place key₂ ++ tail)))) := by
    rw [Text.expandDollars_of_plain hplain₁, hsplit]
    simp only [List.append_assoc]
  rw [shape.fill_eq hwhole hfirst, Text.expandDollars_of_plain hplain₂]
  simp only [List.append_assoc]

theorem quote_eq (v₁ v₂ : Json) :
    quote [(key₁, v₁), (key₂, v₂)] template =
      lead ++ (v₁.display ++ (mid ++ (v₂.display ++ tail))) :=
  Legible.quote_eq [(lead, key₁, v₁), (mid, key₂, v₂)] shape.legible

theorem fills (v₁ v₂ : Json) : Fills template [(key₁, v₁), (key₂, v₂)] := by
  have hplain : Plain [(key₁, v₁), (key₂, v₂)] ↔ v₁.display.Plain ∧ v₂.display.Plain := by
    simp [Plain]
  have hseparate : Separate [(key₁, v₁), (key₂, v₂)] ↔ ¬place key₂ <:+: v₁.display := by
    simp [Separate]
  constructor
  · intro separate
    rw [hplain, shape.quote_eq]
    by_cases hv₁ : v₁.display.Plain
    · rw [shape.fill_apart hv₁ (hseparate.mp separate)]
      exact (and_iff_right hv₁).symm
    · exact iff_of_false (shape.fill_ne hv₁ (hseparate.mp separate)) fun h => hv₁ h.1
  · intro plain joined
    obtain ⟨hv₁, hv₂⟩ := hplain.mp plain
    have hholds : place key₂ <:+: v₁.display := not_not.mp fun h => joined (hseparate.mpr h)
    obtain ⟨before, after, hsplit, hfirst⟩ := Text.exists_first (place_ne_nil key₂) hholds
    refine ⟨_, _, before, after, rfl, hsplit, hfirst, ?_⟩
    rw [shape.quote_eq, shape.fill_moved hv₁ hv₂ hsplit hfirst]
    rfl

end TwoPlaces

/-! ## Texts without dollar signs and braces -/

/-- A text of neither dollar signs nor opening braces. -/
def Harmless (t : Text) : Prop :=
  Text.unit '$' ∉ t ∧ Text.unit '\x7b' ∉ t

instance : DecidablePred Harmless := fun _ => inferInstanceAs (Decidable (_ ∧ _))

theorem harmless_append {s t : Text} : Harmless (s ++ t) ↔ Harmless s ∧ Harmless t := by
  simp only [Harmless, List.mem_append, not_or]
  tauto

theorem harmless_of_digits {t : Text} (h : Text.Digits t) : Harmless t :=
  ⟨fun hmem => absurd (h _ hmem) (by decide), fun hmem => absurd (h _ hmem) (by decide)⟩

theorem harmless_of_subset {s t : Text} (h : Harmless t) (hsub : ∀ u ∈ s, u ∈ t) : Harmless s :=
  ⟨fun hmem => h.1 (hsub _ hmem), fun hmem => h.2 (hsub _ hmem)⟩

theorem harmless_layOut {digits : Text} (h : Text.Digits digits) (point : Int) :
    Harmless (Num.layOut digits point) := by
  have hdigits := harmless_of_digits h
  have htake (n : Nat) : Harmless (digits.take n) :=
    harmless_of_subset hdigits fun u hu => List.mem_of_mem_take hu
  have hdrop (n : Nat) : Harmless (digits.drop n) :=
    harmless_of_subset hdigits fun u hu => List.mem_of_mem_drop hu
  have hzeros (n : Nat) : Harmless (List.replicate n (Text.digit 0)) :=
    harmless_of_digits (Num.digits_zeros n)
  have hpoint : Harmless [Text.unit '.'] := by decide
  have hsmall : Harmless [Text.digit 0, Text.unit '.'] := by decide
  simp only [Num.layOut]
  split
  · exact harmless_append.mpr ⟨hdigits, hzeros _⟩
  · split
    · exact harmless_append.mpr ⟨harmless_append.mpr ⟨htake _, hpoint⟩, hdrop _⟩
    · split
      · exact harmless_append.mpr ⟨harmless_append.mpr ⟨hsmall, hzeros _⟩, hdigits⟩
      · refine harmless_append.mpr ⟨harmless_append.mpr ⟨harmless_append.mpr ⟨htake 1, ?_⟩, ?_⟩,
          harmless_of_digits (Text.digits_ofNat _)⟩
        · split
          · decide
          · exact harmless_append.mpr ⟨hpoint, hdrop 1⟩
        · split <;> decide

theorem harmless_positiveText (q : ℚ) : Harmless (Num.positiveText q) := by
  rw [Num.positiveText]
  split
  · exact harmless_of_digits (Text.digits_ofNat _)
  · refine harmless_layOut (fun u hu => ?_) _
    obtain ⟨k, hk⟩ := Num.dropTrailingZeros_spec (Text.ofNat (Num.shortest q).digits)
    exact Text.digits_ofNat (Num.shortest q).digits u (hk ▸ List.mem_append_left _ hu)

/-- A number is written without dollar signs and braces. -/
theorem harmless_toText (x : Num) : Harmless x.toText := by
  cases x with
  | nan => decide
  | infinite negative => cases negative <;> decide
  | negZero => decide
  | rat q =>
      show Harmless (if q < 0 then _ else _)
      split
      · have hsign : Harmless [Text.unit '-'] := by decide
        exact harmless_append.mpr ⟨hsign, harmless_positiveText (-q)⟩
      · exact harmless_positiveText q

section

variable {template tail : Text} {parts : List (Text × Text × Json)}
  (hharmless : ∀ part ∈ parts, Harmless part.2.2.display)

include hharmless

/-- Harmless texts fill one place each. -/
theorem fill_bare (hliterals : ∀ part ∈ places parts, Text.unit '\x7b' ∉ part.1)
    (hkeys : ∀ part ∈ places parts, Text.unit '\x7b' ∉ part.2) {before : Text}
    (hbefore : Text.unit '\x7b' ∉ before) :
    fill (before ++ bare tail (places parts)) (parts.map Prod.snd) =
      before ++ filled tail parts := by
  induction parts generalizing before with
  | nil => rfl
  | cons part rest ih =>
      obtain ⟨hvalue, hvalues⟩ := List.forall_mem_cons.mp hharmless
      obtain ⟨hliteral, hliterals⟩ := List.forall_mem_cons.mp hliterals
      obtain ⟨hkey, hkeys⟩ := List.forall_mem_cons.mp hkeys
      have hlead : Text.unit '\x7b' ∉ before ++ part.1 := by
        rw [List.mem_append, not_or]
        exact ⟨hbefore, hliteral⟩
      have hnext := @ih hvalues hliterals hkeys (before ++ part.1 ++ part.2.2.display) (by
        rw [List.mem_append, not_or]
        exact ⟨hlead, hvalue.2⟩)
      have hstep := replaceFirst_place hkey (fun h => hlead (h.mem List.mem_cons_self))
        part.2.2.display (bare tail (places rest))
      rw [Text.expandDollars_of_plain (Text.plain_of_not_mem hvalue.1)] at hstep
      simp only [List.append_assoc] at hstep hnext
      show fill (Text.replaceFirst (place part.2.1) part.2.2.display
          (before ++ (part.1 ++ (place part.2.1 ++ bare tail (places rest))))) _ =
        before ++ (part.1 ++ (_ ++ _))
      rw [hstep, hnext]

theorem fills_harmless (hlegible : Legible template tail (places parts)) :
    Fills template (parts.map Prod.snd) := by
  have hparams : ∀ param ∈ parts.map Prod.snd, Harmless param.2.display := by
    intro param hmem
    obtain ⟨part, hpart, rfl⟩ := List.mem_map.mp hmem
    exact hharmless part hpart
  have hseparate : Separate (parts.map Prod.snd) :=
    List.Pairwise.imp_mem.mpr (List.pairwise_of_forall fun earlier later hearlier _ h =>
      (hparams earlier hearlier).2 (h.mem List.mem_cons_self))
  constructor
  · intro _
    have hfill : fill ([] ++ bare tail (places parts)) _ = [] ++ filled tail parts :=
      fill_bare hharmless hlegible.literals hlegible.opens List.not_mem_nil
    rw [List.nil_append, List.nil_append, ← hlegible.template_eq,
      ← hlegible.quote_eq parts] at hfill
    exact iff_of_true hfill fun param hparam => Text.plain_of_not_mem (hparams param hparam).1
  · exact fun _ hnot => absurd hseparate hnot

end

end Diagnostic

/-! ## Causes -/

/-- What the diagnostics of a failure say. -/
def Failure.messages (f : Failure) : List Text :=
  f.diagnostics.map Diagnostic.message

namespace Cause

open Diagnostic

/-- The literals and places of a reason's template, and what stands behind the last one. -/
def outline : Reason → List (Text × Text) × Text
  | .kindMismatch => ([("Kind mismatch: expected ", "expected"), (", got ", "actual")], [])
  | .noConversionPath => ([("No conversion from ", "source"), (" to ", "dest")], [])
  | .invalidLength => ([("Array length is not a size: ", "len")], [])
  | .lengthMismatch =>
    ([("Array length mismatch: expected ", "expected"), (", got ", "actual")], [])
  | .missingField => ([("Field not defined in source: ", "field")], [])
  | .invalidLayout =>
    ([("Destination slot ", "field"), (" overruns its parent of ", "size")], " bytes")
  | .unknownTag => ([("Unknown source tag: ", "tag")], [])
  | .outOfBounds =>
    ([([], "side"), (" range [", "start"), (", ", "end"), (") exceeds buffer of ", "length")],
      " bytes")
  | .invalidDescriptor => ([("Invalid type descriptor: ", "detail")], [])
  | .invalidConfig => ([("Invalid configuration: ", "detail")], [])

theorem legible_outline (r : Reason) : Legible r.template (outline r).2 (outline r).1 := by
  cases r <;> decide +kernel

/-- A range and the buffer that it exceeds. -/
def rangeParts (side : Side) (start finish length : Num) : List (Text × Text × Json) :=
  [([], "side", .str side.name), (" range [", "start", .num start), (", ", "end", .num finish),
    (") exceeds buffer of ", "length", .num length)]

section

variable (side : Side) (start finish length : Num)

theorem harmless_range :
    ∀ part ∈ rangeParts side start finish length, Harmless part.2.2.display := by
  have hside : Harmless side.name := by cases side <;> decide
  simp only [rangeParts, List.forall_mem_cons]
  exact ⟨hside, harmless_toText start, harmless_toText finish, harmless_toText length, by simp⟩

theorem fills_range :
    Fills Reason.outOfBounds.template (outOfBounds side start finish length).params :=
  have hlegible : Legible Reason.outOfBounds.template " bytes"
      (places (rangeParts side start finish length)) := legible_outline .outOfBounds
  fills_harmless (harmless_range side start finish length) hlegible

end

theorem fills (c : Cause) : Fills c.reason.template c.params := by
  cases c with
  | kindMismatch expected actual path =>
      exact TwoPlaces.fills ⟨by decide, legible_outline .kindMismatch⟩ _ _
  | noConversionPath source dest path =>
      exact TwoPlaces.fills ⟨by decide, legible_outline .noConversionPath⟩ _ _
  | invalidLength len path => exact OnePlace.fills ⟨legible_outline .invalidLength, by decide⟩ _
  | lengthMismatch expected actual path =>
      exact TwoPlaces.fills ⟨by decide, legible_outline .lengthMismatch⟩ _ _
  | missingField field path => exact OnePlace.fills ⟨legible_outline .missingField, by decide⟩ _
  | invalidLayout field size path =>
      exact TwoPlaces.fills ⟨by decide, legible_outline .invalidLayout⟩ _ _
  | unknownTag tag => exact OnePlace.fills ⟨legible_outline .unknownTag, by decide⟩ _
  | outOfBounds side start finish length => exact fills_range side start finish length
  | invalidDescriptor detail =>
      exact OnePlace.fills ⟨legible_outline .invalidDescriptor, by decide⟩ _
  | invalidConfig detail => exact OnePlace.fills ⟨legible_outline .invalidConfig, by decide⟩ _

/-- **When a diagnostic quotes its parameters verbatim.** If no text holds the
place of a later parameter, exactly if none has a dollar sequence. If one does
and none has a dollar sequence, the later text lands inside the earlier one,
where its place stands first, and its own place in the template stays. -/
theorem messages_quote_iff (c : Cause) (ref : Nat) :
    (Separate c.params →
      ((c.failure ref).messages = [quote c.params c.reason.template] ↔ Plain c.params)) ∧
    (Plain c.params → ¬Separate c.params → ∃ p q before after, c.params = [p, q] ∧
      p.2.display = before ++ (place q.1 ++ after) ∧ ¬place q.1 <:+: before ∧
      (c.failure ref).messages =
        [quote [(p.1, .str (before ++ (q.2.display ++ after))), (q.1, .str (place q.1))]
          c.reason.template]) := by
  have hmessages : (c.failure ref).messages = [Diagnostic.fill c.reason.template c.params] := rfl
  rw [hmessages]
  refine ⟨fun separate => ?_, fun plain joined => ?_⟩
  · rw [List.singleton_inj]
    exact c.fills.verbatim separate
  · obtain ⟨p, q, before, after, hparams, hsplit, hfirst, hfill⟩ := c.fills.moved plain joined
    exact ⟨p, q, before, after, hparams, hsplit, hfirst,
      congrArg (fun message => [message]) hfill⟩

/-- Two types without dollar signs and braces, a field that is a dollar
sequence, and a type whose name is the place of the other one's. -/
theorem messages_quote_iff_sample :
    (failure (kindMismatch "int32" "text" [])).messages =
      [quote [("expected", .str "int32"), ("actual", .str "text")]
        Reason.kindMismatch.template] ∧
    (failure (missingField "$&" [])).messages ≠
      [quote [("field", .str "$&")] Reason.missingField.template] ∧
    ∃ p q before after, (kindMismatch "\x7bactual\x7d" "text" []).params = [p, q] ∧
      p.2.display = before ++ (place q.1 ++ after) ∧ ¬place q.1 <:+: before ∧
      (failure (kindMismatch "\x7bactual\x7d" "text" [])).messages =
        [quote [(p.1, .str (before ++ (q.2.display ++ after))), (q.1, .str (place q.1))]
          Reason.kindMismatch.template] := by
  have hsequence : ¬Plain (missingField "$&" []).params := by decide
  have hjoined : ¬Separate (kindMismatch "\x7bactual\x7d" "text" []).params := by decide
  refine ⟨?_, ?_, ?_⟩
  · exact ((messages_quote_iff (kindMismatch "int32" "text" []) 0).1 (by decide)).mpr (by decide)
  · exact fun h => hsequence (((messages_quote_iff (missingField "$&" []) 0).1 (by decide)).mp h)
  · exact (messages_quote_iff (kindMismatch "\x7bactual\x7d" "text" []) 0).2 (by decide) hjoined

/-- The name of a field comes out as the place that it was to fill, and the name of a type
as that of the other. -/
theorem names_misquoted :
    (failure (missingField "$&" [])).messages =
      ["Field not defined in source: \x7bfield\x7d"] ∧
    quote [("field", .str "$&")] Reason.missingField.template =
      "Field not defined in source: $&" ∧
    (failure (kindMismatch "\x7bactual\x7d" "text" [])).messages =
      ["Kind mismatch: expected text, got \x7bactual\x7d"] ∧
    quote [("expected", .str "\x7bactual\x7d"), ("actual", .str "text")]
        Reason.kindMismatch.template =
      "Kind mismatch: expected \x7bactual\x7d, got text" := by
  decide +kernel

end Cause

end Relayout

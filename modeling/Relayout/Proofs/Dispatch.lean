import Relayout.Proofs.Mirror

/-!
# Dispatch on source tags

The table of a variant is filled case by case: each matched constructor puts in
its entry under its own tag, and an entry that is already there for that tag is
replaced. Nothing keeps the constructors of a source from sharing a tag. So the
table serves every matched constructor exactly if no two of them bear one tag;
otherwise the last one of a tag takes the values of the others.
-/

namespace Relayout.Plan

open Relayout.Num

/-! ## Filling a table -/

section Table

/-- Put entries into a table, one after the other. -/
def setArms (new arms : List (Arm Plan)) : List (Arm Plan) :=
  new.foldl (fun table arm => setArm arm table) arms

variable {arm : Arm Plan} {arms new : List (Arm Plan)}

/-- An entry for a new tag goes to the end. -/
theorem setArm_fresh (h : ∀ other ∈ arms, other.id.eqv arm.id = false) :
    setArm arm arms = arms ++ [arm] := by
  induction arms with
  | nil => rfl
  | cons other rest ih =>
      obtain ⟨hother, hrest⟩ := List.forall_mem_cons.mp h
      rw [setArm, hother, if_neg Bool.false_ne_true, ih hrest, List.cons_append]

/-- An entry for a tag that is there takes the place of another one. -/
theorem length_setArm_taken (h : ∃ other ∈ arms, other.id.eqv arm.id = true) :
    (setArm arm arms).length = arms.length := by
  induction arms with
  | nil => simp at h
  | cons other rest ih =>
      rw [setArm]
      split
      · rfl
      · rename_i hother
        obtain ⟨found, hmem, hfound⟩ := h
        rcases List.mem_cons.mp hmem with rfl | hmem
        · exact absurd hfound hother
        · rw [List.length_cons, ih ⟨found, hmem, hfound⟩, List.length_cons]

/-- A table grows by no more than what is put in. -/
theorem length_setArms_le (new arms : List (Arm Plan)) :
    (setArms new arms).length ≤ arms.length + new.length := by
  induction new generalizing arms with
  | nil => exact Nat.le_refl _
  | cons arm rest ih =>
      have hset : (setArm arm arms).length ≤ arms.length + 1 := by
        by_cases htaken : ∃ other ∈ arms, other.id.eqv arm.id = true
        · rw [length_setArm_taken htaken]
          exact Nat.le_succ _
        · rw [setArm_fresh (by simpa using htaken), List.length_append]
          rfl
      have hrest := ih (setArm arm arms)
      rw [setArms, List.foldl_cons, ← setArms, List.length_cons]
      omega

/-- **Nothing is replaced in a table exactly if all tags differ.** -/
theorem length_setArms_iff : (setArms new arms).length = arms.length + new.length ↔
    (∀ other ∈ arms, ∀ arm ∈ new, other.id.eqv arm.id = false) ∧
      new.Pairwise fun arm arm' => arm.id.eqv arm'.id = false := by
  induction new generalizing arms with
  | nil => simp [setArms]
  | cons arm rest ih =>
      rw [setArms, List.foldl_cons, ← setArms, List.length_cons]
      by_cases htaken : ∃ other ∈ arms, other.id.eqv arm.id = true
      · have hle := length_setArms_le rest (setArm arm arms)
        rw [length_setArm_taken htaken] at hle
        obtain ⟨other, hmem, hother⟩ := htaken
        refine iff_of_false (by omega) fun h => ?_
        rw [h.1 other hmem arm List.mem_cons_self] at hother
        cases hother
      · have hfresh : ∀ other ∈ arms, other.id.eqv arm.id = false := by simpa using htaken
        have hlength : arms.length + (rest.length + 1) = (arms ++ [arm]).length + rest.length := by
          rw [List.length_append, List.length_singleton]
          omega
        rw [setArm_fresh hfresh, hlength, ih, List.pairwise_cons]
        constructor
        · rintro ⟨hall, hpair⟩
          refine ⟨fun other hother => ?_, fun arm' harm' => ?_, hpair⟩
          · exact List.forall_mem_cons.mpr
              ⟨hfresh other hother, hall other (List.mem_append_left _ hother)⟩
          · exact hall arm (by simp) arm' harm'
        · rintro ⟨hall, harm, hpair⟩
          refine ⟨fun other hother => ?_, hpair⟩
          rcases List.mem_append.mp hother with hother | hother
          · exact (List.forall_mem_cons.mp (hall other hother)).2
          · rw [List.mem_singleton.mp hother]
            exact harm

/-- Entries whose tags differ are put in one behind the other. -/
theorem setArms_fresh (hall : ∀ other ∈ arms, ∀ arm ∈ new, other.id.eqv arm.id = false)
    (hpair : new.Pairwise fun arm arm' => arm.id.eqv arm'.id = false) :
    setArms new arms = arms ++ new := by
  induction new generalizing arms with
  | nil => exact (List.append_nil arms).symm
  | cons arm rest ih =>
      obtain ⟨harm, hrest⟩ := List.pairwise_cons.mp hpair
      have hfresh : setArm arm arms = arms ++ [arm] :=
        setArm_fresh fun other hother => hall other hother arm List.mem_cons_self
      rw [setArms, List.foldl_cons, ← setArms, hfresh, ih _ hrest, List.append_assoc,
        List.singleton_append]
      intro other hother arm' harm'
      rcases List.mem_append.mp hother with hother | hother
      · exact hall other hother arm' (List.mem_cons_of_mem _ harm')
      · rw [List.mem_singleton.mp hother]
        exact harm arm' harm'

end Table

/-! ## The entries of matched constructors -/

/-- The entry that a matched constructor puts in: it is reached by the constructor's tag. -/
structure Enters (payloadOffset : Num) (found : Case Dest × Ctor Desc) (arm : Arm Plan) : Prop
    extends CaseBuilt payloadOffset found arm where
  id : arm.id = found.2.id

/-- **Each matched constructor puts in its entry, in the order of the cases.** -/
theorem buildCases_arms {size target : Num} {ctors : List (Ctor Desc)} {path : List Text}
    {cases : List (Case Dest)} {widest maxAlign : Num} {arms table : List (Arm Plan)}
    (h : (buildCases size target ctors path cases widest arms).result = .ok (maxAlign, table)) :
    ∃ new, List.Forall₂ (Enters target) (matched ctors cases) new ∧ table = setArms new arms := by
  refine buildCases_induct h
    (motive := fun found _ arms =>
      ∃ new, List.Forall₂ (Enters target) found new ∧ table = setArms new arms)
    ⟨[], .nil, rfl⟩ ?_
  intro c ctor rest widest arms align convert _ _ hconvert ih
  obtain ⟨new, hnew, hall⟩ := ih
  exact ⟨⟨ctor.id, c.id, target, convert⟩ :: new, .cons ⟨⟨rfl, rfl, hconvert⟩, rfl⟩ hnew, hall⟩

/-- No two of the matched constructors bear one tag. -/
def Apart (found : List (Case Dest × Ctor Desc)) : Prop :=
  found.Pairwise fun one other => ∀ tag : Nat, one.2.id.Is tag → ¬other.2.id.Is tag

/-- How a table serves the matched constructors of a variant. -/
structure Serves (target : Num) (found : List (Case Dest × Ctor Desc)) (table : List (Arm Plan)) :
    Prop where
  /-- There is one entry for each matched name. -/
  one : table.length = (found.map (·.1.name)).toFinset.card
  /-- A value with the tag of a matched constructor is converted as the payload of that
  constructor, and marked with the tag of the case of its name. -/
  own : ∀ c ctor, (c, ctor) ∈ found → ∃ arm ∈ table, Enters target (c, ctor) arm ∧
    ∀ order policy (src : Source) s d m name maxAlign tag, ctor.id.Is tag →
      (src.seen m).loadWord order s 4 = .ok tag →
        run order policy src (.variant name maxAlign table) s d m =
          fillArm order policy src arm (s + payloadOffset maxAlign) d m

section Tags

variable {ctors : List (Ctor Desc)} {cases : List (Case Dest)} {target : Num}
  {found : List (Case Dest × Ctor Desc)} {new : List (Arm Plan)}

/-- Tags that are natural numbers differ as tags exactly if they differ as numbers. -/
theorem apart_iff (hids : ∀ one ∈ found, ∃ n, one.2.id.Is n ∧ n < twoPow 32) :
    Apart found ↔ found.Pairwise fun one other => one.2.id.eqv other.2.id = false := by
  refine List.Pairwise.iff_of_mem fun {one other} hone hother => ?_
  obtain ⟨n, hn, -⟩ := hids one hone
  obtain ⟨k, hk, -⟩ := hids other hother
  rw [eqv_of_is hn hk, decide_eq_false_iff_not]
  constructor
  · rintro h rfl
    exact h n hn hk
  · rintro h tag htag htag'
    exact h ((hn.unique htag).trans (htag'.unique hk))

/-- The entries bear the tags of the matched constructors. -/
theorem ids_eq (h : List.Forall₂ (Enters target) found new) :
    new.map (·.id) = found.map (·.2.id) := by
  induction h with
  | nil => rfl
  | cons hfirst _ ih => rw [List.map_cons, List.map_cons, ih, hfirst.id]

/-- The entries differ in their tags exactly if the matched constructors do. -/
theorem pairwise_iff (h : List.Forall₂ (Enters target) found new) :
    (new.Pairwise fun arm arm' => arm.id.eqv arm'.id = false) ↔
      found.Pairwise fun one other => one.2.id.eqv other.2.id = false := by
  have hnew := List.pairwise_map (f := fun arm : Arm Plan => arm.id) (l := new)
    (R := fun x y : Num => x.eqv y = false)
  rw [← hnew, ids_eq h, List.pairwise_map]

/-- Among entries whose tags differ, each one is found for its tag. -/
theorem find?_of_pairwise {table : List (Arm Plan)} {arm : Arm Plan} {tag : Num}
    (hpair : table.Pairwise fun arm arm' => arm.id.eqv arm'.id = false) (hmem : arm ∈ table)
    (htag : arm.id.eqv tag = true) : table.find? (·.id.eqv tag) = some arm := by
  induction table with
  | nil => cases hmem
  | cons first rest ih =>
      obtain ⟨hfirst, hrest⟩ := List.pairwise_cons.mp hpair
      rcases List.mem_cons.mp hmem with rfl | hmem
      · rw [List.find?_cons, htag]
      · have hother : first.id.eqv tag = false := by
          by_contra htrue
          rw [Bool.not_eq_false] at htrue
          have hsame := eqv_trans htrue (eqv_symm htag)
          rw [hfirst arm hmem] at hsame
          cases hsame
        rw [List.find?_cons, hother]
        exact ih hrest hmem

/-- Cases that differ in their names are matched under as many names. -/
theorem card_names (hnames : (cases.map (·.name)).Nodup) :
    ((matched ctors cases).map (·.1.name)).toFinset.card = (matched ctors cases).length := by
  have hsub : List.Sublist ((matched ctors cases).map (·.1.name)) (cases.map (·.name)) := by
    induction cases with
    | nil => exact List.Sublist.slnil
    | cons c rest ih =>
        have hrest := ih (List.nodup_cons.mp hnames).2
        cases hctor : ctors.find? (·.name = c.name) with
        | none =>
            rw [matched_cons_none hctor]
            exact hrest.cons _
        | some ctor =>
            rw [matched_cons_some hctor]
            exact hrest.cons_cons _
  rw [List.toFinset_card_of_nodup (hsub.nodup hnames), List.length_map]

/-- If all tags differ, the table consists of the entries put in, and each is reached. -/
theorem serves_of_pairwise (hnames : (cases.map (·.name)).Nodup)
    (hids : ∀ one ∈ matched ctors cases, ∃ n, one.2.id.Is n ∧ n < twoPow 32)
    (h : List.Forall₂ (Enters target) (matched ctors cases) new)
    (hpair : new.Pairwise fun arm arm' => arm.id.eqv arm'.id = false) :
    Serves target (matched ctors cases) new := by
  constructor
  · rw [card_names hnames, h.length_eq]
  · intro c ctor hmem
    obtain ⟨arm, hzip, harm⟩ := Dest.exists_partner h.flip hmem
    have harm_mem := (List.of_mem_zip hzip).1
    refine ⟨arm, harm_mem, harm, fun order policy src s d m name maxAlign tag htag hload => ?_⟩
    obtain ⟨n, hn, hbound⟩ := hids _ hmem
    have hlimit : tag ≤ exactLimit := by
      have hwide : twoPow 32 ≤ exactLimit := by decide
      rw [htag.unique hn]
      omega
    have heqv : arm.id.eqv (.ofNat tag) = true := by
      rw [harm.id, eqv_of_is htag (is_ofNat hlimit)]
      exact decide_eq_true rfl
    rw [run, hload]
    simp only
    rw [runArm_eq, find?_of_pairwise hpair harm_mem heqv]

end Tags

/-! ## Who is served -/

/-- The cases of a variant that the combinators make differ in their names. -/
theorem case_names {surface : Surface} {cases : List (Case Dest)} {target decodedAt : Num}
    (made : (Dest.variant surface cases target decodedAt).Made) : (cases.map (·.name)).Nodup := by
  generalize hdest : Dest.variant surface cases target decodedAt = dest at made
  cases made with
  | prim p => cases hdest
  | array helem hmade =>
      obtain ⟨name, count, -, rfl⟩ := Dest.arrayOf_eq hmade
      cases hdest
  | record names hparts => cases hdest
  | variant names hparts hmade =>
      obtain ⟨name, cases', hcases, rfl⟩ := Dest.variantOf_eq hmade
      cases hdest
      obtain ⟨new, rfl, hnew, -⟩ := Dest.makeCases_spec hcases List.Pairwise.nil
      rw [← hnew, List.map_map] at names
      exact names

/-- **A table serves all matched constructors exactly if no two of them bear one tag.** In any
case a tag is served as the last case, in order, whose constructor bears it. -/
theorem table_serves_iff {surface : Surface} {cases : List (Case Dest)} {target decodedAt : Num}
    (made : (Dest.variant surface cases target decodedAt).Made) {ctors : List (Ctor Desc)}
    (hids : ∀ ctor ∈ ctors, ∃ n, ctor.id.Is n ∧ n < twoPow 32) {path : List Text} {name : Text}
    {maxAlign : Num} {table : List (Arm Plan)}
    (h : (build (.variant surface cases target decodedAt) (.variant ctors) path).result =
      .ok (.variant name maxAlign table)) :
    (Serves target (matched ctors cases) table ↔ Apart (matched ctors cases)) ∧
      ∀ tag found, taken ctors tag cases = some found →
        ∃ arm, table.find? (·.id.eqv tag) = some arm ∧ CaseBuilt target found arm := by
  rw [build] at h
  obtain ⟨⟨maxAlign', table'⟩, htable, h⟩ := Traced.result_bind_eq_ok.mp h
  cases h
  obtain ⟨new, hnew, rfl⟩ := buildCases_arms htable
  have hnames := case_names made
  have hmatched : ∀ one ∈ matched ctors cases, ∃ n, one.2.id.Is n ∧ n < twoPow 32 :=
    fun one hone => hids one.2 (List.mem_of_find?_eq_some (mem_matched.mp hone).2)
  refine ⟨?_, fun tag => (buildCases_ok htable tag).2⟩
  rw [apart_iff hmatched, ← pairwise_iff hnew]
  constructor
  · intro serves
    have hlength : (setArms new []).length = ([] : List (Arm Plan)).length + new.length := by
      rw [serves.one, card_names hnames, ← hnew.length_eq, List.length_nil, Nat.zero_add]
    exact (length_setArms_iff.mp hlength).2
  · intro hpair
    rw [setArms_fresh (by simp) hpair, List.nil_append]
    exact serves_of_pairwise hnames hmatched hnew hpair

namespace Sample

def gaugeCases : List (Case Dest) :=
  [⟨"level", 0, .ofPrim .int32⟩, ⟨"count", 1, .ofPrim .int32⟩]

/-- A gauge shows a level or a count. -/
def gauge : Dest :=
  .variant ⟨"|level: int32, count: int32|", 8, 4⟩ gaugeCases 4 4

theorem gauge_made : gauge.Made := by
  have hmade : Dest.variantOf [("level", .ofPrim .int32), ("count", .ofPrim .int32)] [] =
      .ok gauge := by
    with_unfolding_all rfl
  refine .variant (by decide) ?_ hmade
  simpa using Dest.Made.prim _

/-- Each constructor has a tag of its own. -/
def apart : List (Ctor Desc) :=
  [⟨"level", 1, .prim "int"⟩, ⟨"count", 0, .prim "int"⟩]

/-- The tag stated for levels is the position of counts. -/
def shared : List (Ctor Desc) :=
  [⟨"level", 1, .prim "int"⟩, ⟨"count", 1, .prim "int"⟩]

theorem ids_spec {ctors : List (Ctor Desc)} (h : ctors = apart ∨ ctors = shared) :
    ∀ ctor ∈ ctors, ∃ n, ctor.id.Is n ∧ n < twoPow 32 := by
  have hzero : (0 : Num).Is 0 := is_ofNat (Nat.zero_le _)
  have hone : (1 : Num).Is 1 := is_ofNat (by decide)
  rcases h with rfl | rfl
  · simpa [apart] using ⟨⟨1, hone, by decide⟩, ⟨0, hzero, by decide⟩⟩
  · simpa [shared] using ⟨1, hone, by decide⟩

end Sample

/-- Tags that differ serve both cases of the gauge. -/
theorem table_serves_iff_sample : ∃ table,
    (build Sample.gauge (.variant Sample.apart) []).result =
      .ok (.variant "|level: int32, count: int32|" 4 table) ∧
    Serves 4 (matched Sample.apart Sample.gaugeCases) table := by
  have hbuilt : (build Sample.gauge (.variant Sample.apart) []).result =
      .ok (.variant "|level: int32, count: int32|" 4 [⟨1, 0, 4, .word 4⟩, ⟨0, 1, 4, .word 4⟩]) := by
    with_unfolding_all rfl
  have hids := Sample.ids_spec (Or.inl rfl)
  refine ⟨_, hbuilt, (table_serves_iff Sample.gauge_made hids hbuilt).1.mpr ?_⟩
  have hmatched : ∀ one ∈ matched Sample.apart Sample.gaugeCases,
      ∃ n, one.2.id.Is n ∧ n < twoPow 32 :=
    fun one hone => hids one.2 (List.mem_of_find?_eq_some (mem_matched.mp hone).2)
  exact (apart_iff hmatched).mpr (by decide +kernel)

/-- With one tag for both, the entry for counts takes the place of the one for levels, and levels
are marked as counts. -/
theorem shared_tag_lost : Sample.gauge.Made ∧
    (∀ ctor ∈ Sample.shared, ∃ n, ctor.id.Is n ∧ n < twoPow 32) ∧
    ∃ table, (build Sample.gauge (.variant Sample.shared) []).result =
        .ok (.variant "|level: int32, count: int32|" 4 table) ∧
      ¬Serves 4 (matched Sample.shared Sample.gaugeCases) table := by
  have hbuilt : (build Sample.gauge (.variant Sample.shared) []).result =
      .ok (.variant "|level: int32, count: int32|" 4 [⟨1, 1, 4, .word 4⟩]) := by
    with_unfolding_all rfl
  refine ⟨Sample.gauge_made, Sample.ids_spec (Or.inr rfl), _, hbuilt, fun serves => ?_⟩
  have hlevel : (⟨"level", 0, .ofPrim .int32⟩, ⟨"level", 1, .prim "int"⟩) ∈
      matched Sample.shared Sample.gaugeCases :=
    mem_matched.mpr ⟨List.mem_cons_self, rfl⟩
  obtain ⟨arm, harm, enters, -⟩ := serves.own _ _ hlevel
  rw [List.mem_singleton] at harm
  subst harm
  exact absurd enters.tag (by decide)

end Relayout.Plan

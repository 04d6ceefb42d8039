import Mathlib.Data.List.Perm.Basic
import Relayout.Proofs.Alike

/-!
# Lists paired by name

Two lists of named parts are paired if they bear the same names and parts of one
name are related. Nothing is said about the order. What is computed from the
parts of one list and does not depend on their order is then computed from the
other alike: that all parts have a property, the values of some of them, and
whether one part after the other can be computed at all.
-/

namespace Relayout

/-- The same names, each as often, and parts of one name are related. -/
structure Paired {σ τ : Type} (name : σ → Text) (name' : τ → Text) (r : σ → τ → Prop)
    (l : List σ) (l' : List τ) : Prop where
  names : (l.map name).Perm (l'.map name')
  related : ∀ a ∈ l, ∀ b ∈ l', name a = name' b → r a b

/-- Related one by one, after a permutation. -/
def RelatedPerm {α β : Type} (r : α → β → Prop) (l : List α) (l' : List β) : Prop :=
  ∃ middle, List.Forall₂ r l middle ∧ middle.Perm l'

theorem RelatedPerm.perm {α : Type} {l l' : List α} (h : RelatedPerm (· = ·) l l') : l.Perm l' := by
  obtain ⟨middle, hsame, hperm⟩ := h
  rw [List.forall₂_eq_eq_eq] at hsame
  exact hsame ▸ hperm

/-! ## Parts that are computed one after the other -/

namespace Agree

variable {σ τ α β ε : Type}

/-- Related parts are computed to related values, or some part of both lists fails. -/
theorem mapM {r : α → β → Prop} {f : σ → Except ε α} {g : τ → Except ε β} {l : List σ} {l' : List τ}
    (h : List.Forall₂ (fun a b => Agree r (f a) (g b)) l l') :
    Agree (List.Forall₂ r) (l.mapM f) (l'.mapM g) := by
  induction h with
  | nil => exact .ok .nil
  | cons hfirst _ ih =>
      rw [List.mapM_cons, List.mapM_cons]
      exact hfirst.bind fun _ _ hab => ih.bind fun _ _ hrest => .ok (.cons hab hrest)

/-- The order of the parts decides which failure is the first, but not whether there is one. -/
theorem mapM_perm (f : σ → Except ε α) {l l' : List σ} (h : l.Perm l') :
    Agree List.Perm (l.mapM f) (l'.mapM f) := by
  induction h with
  | nil => exact .ok .nil
  | cons a _ ih =>
      rw [List.mapM_cons, List.mapM_cons]
      exact (refl (r := Eq) (fun _ => rfl) (f a)).bind fun v _ hv =>
        ih.bind fun _ _ hrest => .ok (hv ▸ hrest.cons v)
  | swap a b rest =>
      -- if both fail, each order reports its own first failure
      simp only [List.mapM_cons]
      rcases f a with e | v <;> rcases f b with e' | w <;> rcases rest.mapM f with e'' | vs
      all_goals first | exact .error _ _ | exact .ok (.swap ..)
  | trans _ _ ih ih' => exact (ih.comp ih').imp fun _ _ ⟨_, h, h'⟩ => h.trans h'

end Agree

namespace Paired

variable {σ τ α β ε : Type} {name : σ → Text} {name' : τ → Text} {r q : σ → τ → Prop}
  {l : List σ} {l' : List τ}

theorem symm (h : Paired name name' r l l') : Paired name' name (fun b a => r a b) l' l :=
  ⟨h.names.symm, fun b hb a ha hname => h.related a ha b hb hname.symm⟩

theorem imp (h : Paired name name' r l l')
    (hrq : ∀ a b, name a = name' b → r a b → q a b) : Paired name name' q l l' :=
  ⟨h.names, fun a ha b hb hname => hrq a b hname (h.related a ha b hb hname)⟩

/-- Lists are paired as what they are mapped to. -/
theorem of_map {p : α → β → Prop} {f : σ → Text × α} {g : τ → Text × β}
    (h : Paired Prod.fst Prod.fst (fun a b => p a.2 b.2) (l.map f) (l'.map g)) :
    Paired (fun a => (f a).1) (fun b => (g b).1) (fun a b => p (f a).2 (g b).2) l l' := by
  constructor
  · have hnames := h.names
    rw [List.map_map, List.map_map] at hnames
    exact hnames
  · intro a ha b hb hname
    exact h.related (f a) (List.mem_map_of_mem ha) (g b) (List.mem_map_of_mem hb) hname

theorem partner (h : Paired name name' r l l') {a : σ} (ha : a ∈ l) :
    ∃ b ∈ l', name a = name' b ∧ r a b := by
  obtain ⟨b, hb, hname⟩ := List.mem_map.mp (h.names.mem_iff.mp (List.mem_map_of_mem ha))
  exact ⟨b, hb, hname.symm, h.related a ha b hb hname.symm⟩

/-- All parts of one list have a property if all parts of the other have the property that
it amounts to there. -/
theorem forall_iff {p : σ → Prop} {p' : τ → Prop}
    (h : Paired name name' (fun a b => p a ↔ p' b) l l') : (∀ a ∈ l, p a) ↔ ∀ b ∈ l', p' b := by
  constructor
  · intro hall b hb
    obtain ⟨a, ha, -, hiff⟩ := h.symm.partner hb
    exact hiff.mp (hall a ha)
  · intro hall a ha
    obtain ⟨b, hb, -, hiff⟩ := h.partner ha
    exact hiff.mpr (hall b hb)

/-- Parts of one name can be brought side by side. -/
theorem relatedPerm (h : Paired name name' r l l') : RelatedPerm r l l' := by
  -- the names of the second list are permuted to those of the first, and its parts with them
  have hself : List.Forall₂ (fun t b => t = name' b) (l'.map name') l' := by
    rw [List.forall₂_map_left_iff, List.forall₂_same]
    exact fun _ _ => rfl
  obtain ⟨middle, hnames, hperm⟩ := List.perm_comp_forall₂ h.names hself
  rw [List.forall₂_map_left_iff] at hnames
  refine ⟨middle, ?_, hperm⟩
  have hrelated : ∀ a ∈ l, ∀ b ∈ middle, name a = name' b → r a b :=
    fun a ha b hb => h.related a ha b (hperm.mem_iff.mp hb)
  clear hself hperm h
  induction hnames with
  | nil => exact .nil
  | cons hname _ ih =>
      refine .cons (hrelated _ List.mem_cons_self _ List.mem_cons_self hname) (ih ?_)
      exact fun a ha b hb => hrelated a (List.mem_cons_of_mem _ ha) b (List.mem_cons_of_mem _ hb)

/-- What the parts yield is the same but for the order. -/
theorem filterMap {f : σ → Option α} {g : τ → Option α}
    (h : Paired name name' (fun a b => f a = g b) l l') : (l.filterMap f).Perm (l'.filterMap g) := by
  obtain ⟨middle, hmiddle, hperm⟩ := h.relatedPerm
  have hsame : l.filterMap f = middle.filterMap g := by
    clear hperm h
    induction hmiddle with
    | nil => rfl
    | cons hfirst _ ih => rw [List.filterMap_cons, List.filterMap_cons, hfirst, ih]
  exact hsame ▸ hperm.filterMap g

/-- The parts are computed alike, or some part of both lists fails. -/
theorem mapM {p : α → β → Prop} {f : σ → Except ε α} {g : τ → Except ε β}
    (h : Paired name name' (fun a b => Agree p (f a) (g b)) l l') :
    Agree (RelatedPerm p) (l.mapM f) (l'.mapM g) := by
  obtain ⟨middle, hmiddle, hperm⟩ := h.relatedPerm
  exact (Agree.mapM hmiddle).comp (Agree.mapM_perm g hperm)

end Paired

end Relayout

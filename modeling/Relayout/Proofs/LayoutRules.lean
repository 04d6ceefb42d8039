import Relayout.Proofs.Exact
import Relayout.Failure.Cause
import Mathlib.Logic.Relation
import Mathlib.Order.Bounds.Basic

/-!
# The rules of layout

Source types and destination types are laid out by one set of rules. Level by
level, a value is a scalar, a run of items, a list of parts at offsets of their
own, or a tag with a payload behind it. `Regular` is what the rules ask of one
level. A type that is regular at every level keeps all of its scalars aligned,
at every depth, wherever a value of it is aligned (`Regular.within`).
-/

namespace Relayout

open Relayout.Num

/-! ## Rounding up -/

theorem dvd_roundUp (n a : Nat) : a ∣ roundUp n a :=
  Nat.dvd_mul_left _ _

/-- Rounding up comes to the first multiple that is not below the number. -/
theorem isLeast_roundUp {a : Nat} (ha : IsAlignment a) (n : Nat) :
    IsLeast {k | n ≤ k ∧ a ∣ k} (roundUp n a) := by
  refine ⟨⟨le_roundUp ha, dvd_roundUp n a⟩, fun k ⟨hle, hdvd⟩ => ?_⟩
  rcases ha with rfl | rfl | rfl | rfl <;> rw [roundUp] <;> omega

/-- Of two alignments, the wider one is a multiple of the other. -/
theorem Num.IsAlignment.dvd {a b : Nat} (ha : IsAlignment a) (hb : IsAlignment b) (h : a ≤ b) :
    a ∣ b := by
  rcases ha with rfl | rfl | rfl | rfl <;> rcases hb with rfl | rfl | rfl | rfl <;> omega

/-! ## One level of a type -/

/-- What a value consists of: one scalar, items one after the other, parts at
offsets, or a tag with a payload of one of several types. -/
inductive Node (τ : Type) where
  | scalar (width : Num)
  | items (elem : τ) (length : Num)
  | parts (fields : List (Num × τ))
  | tagged (payload : Num) (types : List τ)

namespace Node

variable {τ : Type}

/-- The types that a type is directly made from. -/
def types : Node τ → List τ
  | scalar _ => []
  | items elem _ => [elem]
  | parts fields => fields.map Prod.snd
  | tagged _ types => types

/-- The alignment of the scalar that a value starts with: a primitive is aligned
to its width, and the tag of a variant to four bytes. -/
inductive Scalar : Node τ → Nat → Prop
  | prim {width : Num} {n : Nat} (hwidth : width.Is n) : Scalar (scalar width) (max n 1)
  | tag {payload : Num} {types : List τ} : Scalar (tagged payload types) 4

/-- The slots of a value, by their offsets from its start. -/
inductive Holds (bytes : τ → Nat) : Node τ → Nat → τ → Prop
  | item {elem : τ} {length : Num} {count i : Nat} (hlength : length.Is count) (hi : i < count) :
      Holds bytes (items elem length) (i * bytes elem) elem
  | field {fields : List (Num × τ)} {offset : Num} {o : Nat} {type : τ}
      (hmem : (offset, type) ∈ fields) (hoffset : offset.Is o) : Holds bytes (parts fields) o type
  | payload {offset : Num} {types : List τ} {o : Nat} {type : τ} (hmem : type ∈ types)
      (hoffset : offset.Is o) : Holds bytes (tagged offset types) o type

end Node

/-- A way to lay out the types of a family. -/
structure Layout (τ : Type) where
  size : τ → Except Cause Num
  align : τ → Except Cause Num
  node : τ → Except Cause (Node τ)

namespace Layout

variable {τ : Type} (L : Layout τ)

/-- The bytes of a value as a natural number. -/
def bytes (d : τ) : Nat :=
  match L.size d with
  | .ok x => x.toNat?.getD 0
  | .error _ => 0

/-- The alignment of a value as a natural number. -/
def alignment (d : τ) : Nat :=
  match L.align d with
  | .ok x => x.toNat?.getD 1
  | .error _ => 1

/-- The second type is one that the first is directly made from. -/
def Part (d part : τ) : Prop :=
  ∃ node, L.node d = .ok node ∧ part ∈ node.types

/-- The second type occurs in the first at some depth, be it in an empty array. -/
def Inside (d part : τ) : Prop :=
  Relation.ReflTransGen L.Part d part

/-- A value starts with a scalar of this alignment. -/
def Scalar (d : τ) (a : Nat) : Prop :=
  ∃ node, L.node d = .ok node ∧ node.Scalar a

/-- A value has a slot of the given type at an offset. -/
def Slot (d : τ) (o : Nat) (part : τ) : Prop :=
  ∃ node, L.node d = .ok node ∧ node.Holds L.bytes o part

/-- At some depth, a value has a part of the given type at an offset. -/
inductive Within : τ → Nat → τ → Prop
  | whole (d : τ) : Within d 0 d
  | slot {d part inner : τ} {o p : Nat} (hslot : L.Slot d o part) (hinner : Within part p inner) :
      Within d (o + p) inner

/-- All sizes in a type lie below the limit of exactness. -/
def Bounded (d : τ) : Prop :=
  ∀ part, L.Inside d part → ∀ x, L.size part = .ok x → x.Small

/-- Fields that follow one another between two positions, each at the first
multiple of its alignment behind the one before it. -/
def Packed : List (Num × τ) → (start finish : Nat) → Prop
  | [], start, finish => start ≤ finish
  | (offset, type) :: rest, start, finish =>
    ∃ o, offset.Is o ∧ IsLeast {k | start ≤ k ∧ L.alignment type ∣ k} o ∧
      Packed rest (o + L.bytes type) finish

/-- Where the slots of a value of `n` bytes are: the number of its items, the
offsets of its fields and the offset of its payload are natural numbers, the
fields are packed, and the payload lies behind the tag, at the first position
that is aligned for each of its types. -/
def Arranged (n : Nat) : Node τ → Prop
  | .scalar width => width.Is n
  | .items elem length => ∃ count, length.Is count ∧ n = count * L.bytes elem
  | .parts fields => L.Packed fields 0 n
  | .tagged payload types =>
    ∃ o, payload.Is o ∧ IsLeast {k | 4 ≤ k ∧ ∀ type ∈ types, L.alignment type ∣ k} o ∧ o ≤ n

/-- A level of a type that keeps the rules. -/
structure Regular (d : τ) : Prop where
  size : ∃ x, L.size d = .ok x ∧ x.Is (L.bytes d)
  align : ∃ x, L.align d = .ok x ∧ x.Is (L.alignment d)
  isAlignment : IsAlignment (L.alignment d)
  widest : IsGreatest {a | a = 1 ∨ ∃ part, L.Inside d part ∧ L.Scalar part a} (L.alignment d)
  scalar : ∀ a, L.Scalar d a → a ∣ L.alignment d
  stride : L.alignment d ∣ L.bytes d
  arranged : ∃ node, L.node d = .ok node ∧ L.Arranged (L.bytes d) node
  slot : ∀ o part, L.Slot d o part → L.alignment part ∣ o ∧ o + L.bytes part ≤ L.bytes d

variable {L} {d : τ}

theorem bytes_of_is {x : Num} {n : Nat} (h : L.size d = .ok x) (hx : x.Is n) : L.bytes d = n := by
  rw [bytes, h]
  simp only
  rw [hx.toNat?, Option.getD_some]

theorem alignment_of_is {x : Num} {a : Nat} (h : L.align d = .ok x) (hx : x.Is a) :
    L.alignment d = a := by
  rw [alignment, h]
  simp only
  rw [hx.toNat?, Option.getD_some]

theorem Bounded.small (h : L.Bounded d) {x : Num} (hx : L.size d = .ok x) : x.Small :=
  h d .refl x hx

theorem Bounded.part {part : τ} (h : L.Bounded d) (hpart : L.Part d part) : L.Bounded part :=
  fun inner hinner => h inner (.head hpart hinner)

/-- Sizes are bounded throughout where they are so on the first level of what is
made of parts of the same kind. -/
theorem bounded_of_hereditary {P : τ → Prop} (hpart : ∀ d part, P d → L.Part d part → P part)
    (hsmall : ∀ d, P d → ∀ x, L.size d = .ok x → x.Small) (h : P d) : L.Bounded d := by
  intro part hinside
  induction hinside using Relation.ReflTransGen.head_induction_on with
  | refl => exact hsmall _ h
  | head hstep _ ih => exact ih (hpart _ _ h hstep)

/-! ## Packed fields -/

section

variable {fields : List (Num × τ)} {start finish : Nat}

theorem Packed.le (h : L.Packed fields start finish) : start ≤ finish := by
  induction fields generalizing start with
  | nil => exact h
  | cons field rest ih =>
      obtain ⟨o, -, ⟨⟨hstart, -⟩, -⟩, hrest⟩ := h
      have := ih hrest
      omega

theorem Packed.mono {finish' : Nat} (h : L.Packed fields start finish) (hle : finish ≤ finish') :
    L.Packed fields start finish' := by
  induction fields generalizing start with
  | nil => exact Nat.le_trans h hle
  | cons field rest ih =>
      obtain ⟨o, ho, hleast, hrest⟩ := h
      exact ⟨o, ho, hleast, ih hrest⟩

/-- A packed field lies between the two positions, at a multiple of its alignment. -/
theorem Packed.field {offset : Num} {type : τ} {o : Nat} (h : L.Packed fields start finish)
    (hmem : (offset, type) ∈ fields) (ho : offset.Is o) :
    start ≤ o ∧ L.alignment type ∣ o ∧ o + L.bytes type ≤ finish := by
  induction fields generalizing start with
  | nil => cases hmem
  | cons field rest ih =>
      obtain ⟨p, hp, ⟨⟨hstart, hdvd⟩, -⟩, hrest⟩ := h
      rcases List.mem_cons.mp hmem with rfl | hmem
      · obtain rfl := ho.unique hp
        exact ⟨hstart, hdvd, hrest.le⟩
      · obtain ⟨hle, hdvd', hend⟩ := ih hrest hmem
        exact ⟨by omega, hdvd', hend⟩

/-- Packed fields are apart: each one ends before all later ones start. -/
theorem Packed.apart (h : L.Packed fields start finish) :
    fields.Pairwise fun f g => ∀ o p, f.1.Is o → g.1.Is p → o + L.bytes f.2 ≤ p := by
  induction fields generalizing start with
  | nil => exact .nil
  | cons field rest ih =>
      obtain ⟨o, ho, -, hrest⟩ := h
      refine .cons (fun g hg p q hp hq => ?_) (ih hrest)
      obtain rfl := ho.unique hp
      exact (hrest.field hg hq).1

end

/-! ## The widest alignment -/

/-- The widest of `w` and the alignments of the types. -/
def Widest (L : Layout τ) (w : Nat) (types : List τ) (a : Nat) : Prop :=
  IsGreatest {b | b = w ∨ ∃ type ∈ types, b = L.alignment type} a

section

variable {types : List τ} {w a : Nat}

theorem Widest.nil : L.Widest w [] w :=
  ⟨Or.inl rfl, by rintro b (rfl | ⟨type, hmem, -⟩); exacts [Nat.le_refl b, by cases hmem]⟩

theorem Widest.le (h : L.Widest w types a) : w ≤ a :=
  h.2 (Or.inl rfl)

theorem Widest.type_le (h : L.Widest w types a) {type : τ} (hmem : type ∈ types) :
    L.alignment type ≤ a :=
  h.2 (Or.inr ⟨type, hmem, rfl⟩)

/-- To start from a wider alignment is to have one more type. -/
theorem Widest.cons {type : τ} (h : L.Widest (Nat.max w (L.alignment type)) types a) :
    L.Widest w (type :: types) a := by
  have hmax : w ≤ a ∧ L.alignment type ≤ a := Nat.max_le.mp h.le
  refine ⟨?_, ?_⟩
  · rcases h.1 with heq | ⟨other, hmem, heq⟩
    · rcases Nat.le_total w (L.alignment type) with hle | hle
      · exact Or.inr ⟨type, List.mem_cons_self, heq.trans (Nat.max_eq_right hle)⟩
      · exact Or.inl (heq.trans (Nat.max_eq_left hle))
    · exact Or.inr ⟨other, List.mem_cons_of_mem _ hmem, heq⟩
  · rintro b (rfl | ⟨other, hmem, rfl⟩)
    · exact hmax.1
    · rcases List.mem_cons.mp hmem with rfl | hmem
      · exact hmax.2
      · exact h.type_le hmem

/-- To start from a wider alignment is to take the wider of the two results. -/
theorem Widest.max {v : Nat} (h : L.Widest w types a) (hle : w ≤ v) :
    L.Widest v types (Nat.max v a) := by
  refine ⟨?_, ?_⟩
  · rcases Nat.le_total v a with hva | hav
    · have heq : Nat.max v a = a := Nat.max_eq_right hva
      rw [heq]
      rcases h.1 with rfl | htype
      · exact Or.inl (Nat.le_antisymm hle hva)
      · exact Or.inr htype
    · exact Or.inl (Nat.max_eq_left hav)
  · rintro b (rfl | ⟨type, hmem, rfl⟩)
    · exact Nat.le_max_left _ _
    · exact (h.type_le hmem).trans (Nat.le_max_right _ _)

theorem Widest.isAlignment (h : L.Widest w types a) (hw : IsAlignment w)
    (htypes : ∀ type ∈ types, L.Regular type) : IsAlignment a := by
  rcases h.1 with rfl | ⟨type, hmem, rfl⟩
  · exact hw
  · exact (htypes type hmem).isAlignment

/-- The widest of the alignments divides what all of them divide. -/
theorem Widest.dvd_iff (h : L.Widest 1 types a) (htypes : ∀ type ∈ types, L.Regular type) (k : Nat) :
    a ∣ k ↔ ∀ type ∈ types, L.alignment type ∣ k := by
  have ha := h.isAlignment (Or.inl rfl) htypes
  refine ⟨fun hdvd type hmem => ?_, fun hall => ?_⟩
  · exact ((htypes type hmem).isAlignment.dvd ha (h.type_le hmem)).trans hdvd
  · rcases h.1 with rfl | ⟨type, hmem, rfl⟩
    · exact Nat.one_dvd k
    · exact hall type hmem

/-- The widest alignment on one level is the widest at every depth, when it is so
for the parts. -/
theorem widest_inside {node : Node τ} (hnode : L.node d = .ok node)
    (hparts : ∀ part ∈ node.types, L.Regular part)
    (h : IsGreatest {b | b = 1 ∨ node.Scalar b ∨ ∃ part ∈ node.types, b = L.alignment part} a) :
    IsGreatest {b | b = 1 ∨ ∃ part, L.Inside d part ∧ L.Scalar part b} a := by
  refine ⟨?_, ?_⟩
  · rcases h.1 with h1 | hscalar | ⟨part, hmem, rfl⟩
    · exact Or.inl h1
    · exact Or.inr ⟨d, .refl, node, hnode, hscalar⟩
    · rcases (hparts part hmem).widest.1 with h1 | ⟨inner, hinner, hscalar⟩
      · exact Or.inl h1
      · exact Or.inr ⟨inner, .head ⟨node, hnode, hmem⟩ hinner, hscalar⟩
  · rintro b (rfl | ⟨inner, hinner, hscalar⟩)
    · exact h.2 (Or.inl rfl)
    · rcases Relation.ReflTransGen.cases_head hinner with rfl | ⟨part, ⟨_, hother, hmem⟩, hinner⟩
      · obtain ⟨_, hother, hscalar⟩ := hscalar
        cases hnode.symm.trans hother
        exact h.2 (Or.inr (Or.inl hscalar))
      · cases hnode.symm.trans hother
        exact ((hparts part hmem).widest.2 (Or.inr ⟨inner, hinner, hscalar⟩)).trans
          (h.2 (Or.inr (Or.inr ⟨part, hmem, rfl⟩)))

end

/-! ## Each kind of level is regular -/

/-- A scalar as wide as it is aligned, or without bytes. -/
theorem regular_scalar {width : Num} {n : Nat} (hnode : L.node d = .ok (.scalar width))
    (hwidth : width.Is n) (hn : n = 0 ∨ IsAlignment n) (hsize : L.size d = .ok width) {x : Num}
    (halign : L.align d = .ok x) (hx : x.Is (max n 1)) : L.Regular d := by
  have hbytes := bytes_of_is hsize hwidth
  have halignment := alignment_of_is halign hx
  have hmax : n = 0 ∧ max n 1 = 1 ∨ IsAlignment n ∧ max n 1 = n := by
    rcases hn with rfl | hn
    · exact Or.inl ⟨rfl, rfl⟩
    · exact Or.inr ⟨hn, Nat.max_eq_left hn.pos⟩
  have hscalar : ∀ a, (Node.scalar width : Node τ).Scalar a → a = max n 1 := by
    rintro a ⟨hother⟩
    rw [hwidth.unique hother]
  refine ⟨⟨width, hsize, hbytes ▸ hwidth⟩, ⟨x, halign, halignment ▸ hx⟩, ?_, ?_, ?_, ?_,
    ⟨_, hnode, hbytes ▸ hwidth⟩, ?_⟩
  · rcases hmax with ⟨-, heq⟩ | ⟨ha, heq⟩
    · rw [halignment, heq]
      exact Or.inl rfl
    · rw [halignment, heq]
      exact ha
  · rw [halignment]
    refine widest_inside hnode (by simp [Node.types]) ⟨Or.inr (Or.inl (.prim hwidth)), ?_⟩
    rintro b (rfl | hb | ⟨part, hmem, -⟩)
    · exact Nat.le_max_right _ _
    · exact (hscalar b hb).le
    · cases hmem
  · rintro a ⟨_, hother, ha⟩
    cases hnode.symm.trans hother
    rw [halignment, hscalar a ha]
  · rw [halignment, hbytes]
    rcases hmax with ⟨rfl, -⟩ | ⟨-, heq⟩
    · exact Nat.dvd_zero _
    · rw [heq]
  · rintro o part ⟨_, hother, hholds⟩
    cases hnode.symm.trans hother
    cases hholds

/-- Items one after the other. -/
theorem regular_items {elem : τ} {length : Num} {count : Nat}
    (hnode : L.node d = .ok (.items elem length)) (helem : L.Regular elem)
    (hlength : length.Is count) {x y : Num} (hsize : L.size d = .ok x)
    (hx : x.Is (count * L.bytes elem)) (halign : L.align d = .ok y)
    (hy : y.Is (L.alignment elem)) : L.Regular d := by
  have hbytes := bytes_of_is hsize hx
  have halignment := alignment_of_is halign hy
  have hstride : ∀ i, L.alignment elem ∣ i * L.bytes elem := fun i =>
    helem.stride.mul_left i
  refine ⟨⟨x, hsize, hbytes ▸ hx⟩, ⟨y, halign, halignment ▸ hy⟩, halignment ▸ helem.isAlignment,
    ?_, ?_, ?_, ⟨_, hnode, count, hlength, hbytes⟩, ?_⟩
  · rw [halignment]
    refine widest_inside hnode (by simpa [Node.types] using helem)
      ⟨Or.inr (Or.inr ⟨elem, by simp [Node.types], rfl⟩), ?_⟩
    rintro b (rfl | hb | ⟨part, hmem, rfl⟩)
    · exact helem.isAlignment.pos
    · cases hb
    · rw [Node.types, List.mem_singleton] at hmem
      rw [hmem]
  · rintro a ⟨_, hother, ha⟩
    cases hnode.symm.trans hother
    cases ha
  · rw [halignment, hbytes]
    exact hstride count
  · rintro o part ⟨_, hother, hholds⟩
    cases hnode.symm.trans hother
    cases hholds with
    | @item _ _ count' i hlength' hi =>
        obtain rfl := hlength.unique hlength'
        refine ⟨hstride i, ?_⟩
        rw [hbytes, ← Nat.succ_mul]
        exact Nat.mul_le_mul_right _ hi

/-- Packed fields with padding up to the widest alignment. -/
theorem regular_parts {fields : List (Num × τ)} {m a : Nat}
    (hnode : L.node d = .ok (.parts fields)) (hfields : ∀ f ∈ fields, L.Regular f.2)
    (hpacked : L.Packed fields 0 m) (hwidest : L.Widest 1 (fields.map Prod.snd) a) {x y : Num}
    (hsize : L.size d = .ok x) (hx : x.Is (roundUp m a)) (halign : L.align d = .ok y)
    (hy : y.Is a) : L.Regular d := by
  have hbytes := bytes_of_is hsize hx
  have halignment := alignment_of_is halign hy
  have htypes : ∀ type ∈ fields.map Prod.snd, L.Regular type := List.forall_mem_map.mpr hfields
  have ha := hwidest.isAlignment (Or.inl rfl) htypes
  have hfull : L.Packed fields 0 (L.bytes d) := hbytes ▸ hpacked.mono (le_roundUp ha)
  refine ⟨⟨x, hsize, hbytes ▸ hx⟩, ⟨y, halign, halignment ▸ hy⟩, halignment ▸ ha, ?_, ?_, ?_,
    ⟨_, hnode, hfull⟩, ?_⟩
  · rw [halignment]
    refine widest_inside hnode htypes ⟨hwidest.1.imp_right Or.inr, ?_⟩
    rintro b (rfl | hb | htype)
    · exact hwidest.le
    · cases hb
    · exact hwidest.2 (Or.inr htype)
  · rintro b ⟨_, hother, hb⟩
    cases hnode.symm.trans hother
    cases hb
  · rw [halignment, hbytes]
    exact dvd_roundUp m a
  · rintro o part ⟨_, hother, hholds⟩
    cases hnode.symm.trans hother
    cases hholds with
    | field hmem ho => exact (hfull.field hmem ho).2

/-- A tag, the payloads behind it at the first multiple of their widest
alignment, and padding. -/
theorem regular_tagged {payload : Num} {types : List τ} {w a m : Nat}
    (hnode : L.node d = .ok (.tagged payload types)) (htypes : ∀ type ∈ types, L.Regular type)
    (hw : L.Widest 1 types w) (hwidest : L.Widest 4 types a) (hpayload : payload.Is (roundUp 4 w))
    (hm : ∀ type ∈ types, L.bytes type ≤ m) {x y : Num} (hsize : L.size d = .ok x)
    (hx : x.Is (roundUp (roundUp 4 w + m) a)) (halign : L.align d = .ok y) (hy : y.Is a) :
    L.Regular d := by
  have hbytes := bytes_of_is hsize hx
  have halignment := alignment_of_is halign hy
  have h4 : IsAlignment 4 := Or.inr (Or.inr (Or.inl rfl))
  have hwa := hw.isAlignment (Or.inl rfl) htypes
  have ha := hwidest.isAlignment h4 htypes
  have htag := le_roundUp (n := 4) hwa
  have hend := le_roundUp (n := roundUp 4 w + m) ha
  refine ⟨⟨x, hsize, hbytes ▸ hx⟩, ⟨y, halign, halignment ▸ hy⟩, halignment ▸ ha, ?_, ?_, ?_,
    ⟨_, hnode, _, hpayload, ?_, by omega⟩, ?_⟩
  · rw [halignment]
    refine widest_inside hnode htypes ⟨?_, ?_⟩
    · rcases hwidest.1 with rfl | htype
      · exact Or.inr (Or.inl .tag)
      · exact Or.inr (Or.inr htype)
    · rintro b (rfl | hb | htype)
      · exact ha.pos
      · cases hb
        exact hwidest.le
      · exact hwidest.2 (Or.inr htype)
  · rintro b ⟨_, hother, hb⟩
    cases hnode.symm.trans hother
    cases hb
    exact halignment ▸ h4.dvd ha hwidest.le
  · rw [halignment, hbytes]
    exact dvd_roundUp _ a
  · simpa only [← hw.dvd_iff htypes] using isLeast_roundUp hwa 4
  · rintro o type ⟨_, hother, hholds⟩
    cases hnode.symm.trans hother
    cases hholds with
    | payload hmem ho =>
        obtain rfl := ho.unique hpayload
        have hdvd := (htypes type hmem).isAlignment.dvd hwa (hw.type_le hmem)
        have := hm type hmem
        exact ⟨hdvd.trans (dvd_roundUp 4 w), by omega⟩

/-! ## Every depth -/

theorem Slot.part {o : Nat} {part : τ} (h : L.Slot d o part) : L.Part d part := by
  obtain ⟨node, hnode, hholds⟩ := h
  refine ⟨node, hnode, ?_⟩
  cases hholds with
  | item hlength hi => exact List.mem_singleton_self _
  | field hmem hoffset => exact List.mem_map_of_mem hmem
  | payload hmem hoffset => exact hmem

theorem Within.inside {o : Nat} {part : τ} (h : L.Within d o part) : L.Inside d part := by
  induction h with
  | whole d => exact .refl
  | slot hslot _ ih => exact .head hslot.part ih

/-- **Where a value is aligned, so are all its parts**, at every depth, and they
lie inside it. -/
theorem Regular.within (h : ∀ part, L.Inside d part → L.Regular part) {o : Nat} {part : τ}
    (hwithin : L.Within d o part) {base : Nat} (hbase : L.alignment d ∣ base) :
    L.alignment part ∣ base + o ∧ o + L.bytes part ≤ L.bytes d := by
  induction hwithin generalizing base with
  | whole d => exact ⟨hbase, (Nat.zero_add _).le⟩
  | @slot d part inner o p hslot hinner ih =>
      obtain ⟨hdvd, hend⟩ := (h d .refl).slot o part hslot
      -- the part is no wider aligned than the whole, so its alignment divides both terms
      have hpart := h part (.single hslot.part)
      have hle : L.alignment part ≤ L.alignment d := by
        rcases hpart.widest.1 with heq | ⟨inner, hinside, hscalar⟩
        · exact heq ▸ (h d .refl).isAlignment.pos
        · exact (h d .refl).widest.2 (Or.inr ⟨inner, .head hslot.part hinside, hscalar⟩)
      have hnarrow := hpart.isAlignment.dvd (h d .refl).isAlignment hle
      obtain ⟨hinner, hinside⟩ := ih (fun inner hin => h inner (.head hslot.part hin))
        (Nat.dvd_add (hnarrow.trans hbase) hdvd)
      exact ⟨(Nat.add_assoc _ _ _) ▸ hinner, by omega⟩

/-- A type that is laid out by the rules throughout: every level is regular, no
two fields of one level overlap, and in aligned memory every part lies inside
the value, at a multiple of its own alignment and of that of its scalar. -/
structure Conforms (L : Layout τ) (d : τ) : Prop where
  regular : ∀ part, L.Inside d part → L.Regular part
  apart : ∀ part fields, L.Inside d part → L.node part = .ok (.parts fields) →
    fields.Pairwise fun f g => ∀ o p, f.1.Is o → g.1.Is p → o + L.bytes f.2 ≤ p
  aligned : ∀ base, L.alignment d ∣ base → ∀ o part, L.Within d o part →
    o + L.bytes part ≤ L.bytes d ∧ L.alignment part ∣ base + o ∧
      ∀ a, L.Scalar part a → a ∣ base + o

/-- Regular levels are all it takes. -/
theorem conforms_of_regular (h : ∀ part, L.Inside d part → L.Regular part) : L.Conforms d := by
  refine ⟨h, fun part fields hinside hfields => ?_, fun base hbase o part hwithin => ?_⟩
  · obtain ⟨node, hnode, harranged⟩ := (h part hinside).arranged
    cases hfields.symm.trans hnode
    exact Packed.apart harranged
  · obtain ⟨hdvd, hend⟩ := Regular.within h hwithin hbase
    exact ⟨hend, hdvd, fun a ha => ((h part hwithin.inside).scalar a ha).trans hdvd⟩

/-- If what keeps the rules on its first level is made of parts that do so too,
it keeps them throughout. -/
theorem conforms_of_hereditary {P : τ → Prop} (hpart : ∀ d part, P d → L.Part d part → P part)
    (hregular : ∀ d, P d → L.Bounded d → L.Regular d) (h : P d) (bounded : L.Bounded d) :
    L.Conforms d := by
  refine conforms_of_regular fun part hinside => ?_
  induction hinside using Relation.ReflTransGen.head_induction_on with
  | refl => exact hregular _ h bounded
  | head hstep _ ih => exact ih (hpart _ _ h hstep) (bounded.part hstep)

end Layout

end Relayout

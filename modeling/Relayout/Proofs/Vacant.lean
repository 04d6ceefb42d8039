import Relayout.Proofs.Amounts
import Relayout.Proofs.Footprint

/-!
# Types without bytes

A settled type without bytes is a unit, an empty array, or made of such types. A
conversion into it takes no step, so it does not matter at which positions its
items lie or how many there are.
-/

namespace Relayout

open Relayout.Num

namespace Trail

theorem iterate_done {part : Nat → Trail} (h : ∀ i, part i = done) (i count : Nat) :
    iterate part i count = done := by
  induction count generalizing i with
  | zero => rfl
  | succ count ih =>
      rw [iterate, h, ih]
      rfl

end Trail

namespace Plan

variable {order : ByteOrder} {policy : UnknownTagPolicy}

/-- If the items of an array have bytes, there are fewer of them than the limit. -/
theorem items_lt {count width : Nat} (hne : count * width ≠ 0) (hlimit : count * width < exactLimit) :
    0 < count ∧ count < exactLimit := by
  obtain ⟨hcount, hwidth⟩ := Nat.mul_ne_zero_iff.mp hne
  have hle := Nat.le_mul_of_pos_right count (Nat.pos_of_ne_zero hwidth)
  exact ⟨Nat.pos_of_ne_zero hcount, by omega⟩

/-- What is to be shown of the parts of a type: a conversion into it takes no step. -/
def Idle (order : ByteOrder) (policy : UnknownTagPolicy) (dest : Dest) : Prop :=
  ∀ (src : History) (desc : Desc) (plan : Plan) (s d : Num), Built dest desc plan →
    plan.trail order policy src s d = .done

theorem idle_unit : Idle order policy (.ofPrim .unit) := by
  intro src desc plan s d built
  rcases built_prim built with ⟨-, rfl⟩ | ⟨q, hq, -, -⟩
  · rw [if_pos rfl, trail]
    rfl
  · cases hq

theorem idle_array {surface : Surface} {elem : Dest} {length : Num} {count : Nat}
    (hlength : length.Is count) (h : 0 < count → Idle order policy elem) :
    Idle order policy (.array surface elem length count) := by
  intro src desc plan s d built
  obtain ⟨elemDesc, n, step, convert, rfl, -, hconvert, -, rfl⟩ := built_array built
  rw [hlength.toNat?, Option.getD_some, trail]
  rcases Nat.eq_zero_or_pos count with rfl | hpos
  · rfl
  · exact Trail.iterate_done (fun i => h hpos _ _ _ _ _ hconvert) 0 count

theorem idle_fields {fields : List (Field Desc)} {slots : List (Slot Dest)}
    {plans : List (FieldPlan Plan)} (built : List.Forall₂ (SlotBuilt fields) slots plans)
    (h : ∀ slot ∈ slots, Idle order policy slot.type) (src : History) (s d : Num) :
    trailFields order policy src plans s d = .done := by
  induction built generalizing src with
  | nil => rfl
  | cons hbuilt _ ih =>
      obtain ⟨hfirst, hrest⟩ := List.forall_mem_cons.mp h
      obtain ⟨field, -, -, -, hconvert⟩ := hbuilt
      rw [trailFields, hfirst _ _ _ _ _ hconvert, ih hrest]
      rfl

/-- **A conversion into a type without bytes takes no step.** -/
theorem idle_of_empty {dest : Dest} (settled : dest.Settled) (h : dest.bytes = 0) :
    Idle order policy dest := by
  induction settled with
  | prim p =>
      have hp : (Dest.ofPrim p).bytes = p.size := Dest.bytes_of_is (is_ofNat (by cases p <;> decide))
      rw [hp] at h
      cases p with
      | unit => exact idle_unit
      | _ => exact absurd h (by decide)
  | @array surface elem length count helem hlength hsize _ ih =>
      have hbytes : (Dest.array surface elem length count).bytes = count * elem.bytes :=
        Dest.bytes_of_is hsize
      rcases Nat.mul_eq_zero.mp (hbytes.symm.trans h) with rfl | hwidth
      · exact idle_array hlength fun hpos => absurd hpos (Nat.lt_irrefl 0)
      · exact idle_array hlength fun hpos => ih hpos hwidth
  | @record surface slots n _ hplaced hsize _ ih =>
      have hbytes : (Dest.record surface slots).bytes = n := Dest.bytes_of_is hsize
      obtain rfl : n = 0 := hbytes.symm.trans h
      intro src desc plan s d built
      obtain ⟨fields, plans, rfl, rfl, hplans⟩ := built_record built
      rw [trail]
      refine idle_fields hplans (fun slot hslot => ih slot hslot ?_) src s d
      obtain ⟨p, -, -, hend⟩ := hplaced.of_mem hslot
      omega
  | @variant surface cases payloadOffset p n _ _ htag _ hpn hsize _ _ =>
      have hbytes : (Dest.variant surface cases payloadOffset payloadOffset).bytes = n :=
        Dest.bytes_of_is hsize
      omega

/-- A conversion into an array without bytes takes no step. -/
theorem trail_empty_array {surface : Surface} {elem : Dest} {length : Num} {count : Nat}
    (helem : 0 < count → elem.Settled) (hlength : length.Is count)
    (hempty : count * elem.bytes = 0) {desc : Desc} {plan : Plan}
    (built : Built (.array surface elem length count) desc plan) (src : History) (s d : Num) :
    plan.trail order policy src s d = .done := by
  refine idle_array hlength (fun hpos => ?_) src desc plan s d built
  rcases Nat.mul_eq_zero.mp hempty with rfl | hwidth
  · exact absurd hpos (Nat.lt_irrefl 0)
  · exact idle_of_empty (helem hpos) hwidth

end Plan

end Relayout

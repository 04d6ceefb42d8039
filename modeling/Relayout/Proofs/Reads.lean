import Relayout.Proofs.Measured
import Relayout.Proofs.Vacant

/-!
# What a run reads

If the reach of a pair lies within the source, every read of a run lies within
the reach, whatever is found there meanwhile. Hence all reads succeed, every
number that is stored is whole where it must be, and only an unknown tag is left
to stop the run. Where nothing is read, no step is taken.
-/

namespace Relayout

open Relayout.Num

/-- The fault of a source tag without a constructor. -/
def Fault.unknownTag (tag : Nat) : Fault :=
  .failure (Cause.unknownTag (.ofNat tag)).failure

/-- A word has fewer values than its range. -/
theorem Word.ofBytes_lt (order : ByteOrder) (bytes : List UInt8) :
    Word.ofBytes order bytes < Word.range bytes.length := by
  have hpos : 0 < Word.range bytes.length := Nat.pow_pos (by decide)
  have hmod := Word.ofBytes_toBytes order bytes.length (Word.ofBytes order bytes)
  rw [Word.toBytes_ofBytes] at hmod
  exact hmod.symm ▸ Nat.mod_lt _ hpos

/-- What is found in the source has so many bytes throughout. -/
def History.Sized (src : History) (length : Nat) : Prop :=
  ∀ place, (src.seen place).size = length

namespace History

variable {src : History} {length : Nat}

theorem sized_always (m : Memory) : (always m).Sized m.size :=
  fun _ => rfl

theorem Sized.part (h : src.Sized length) (i : Nat) : (src.part i).Sized length :=
  fun place => h (i :: place)

theorem Sized.rest (h : src.Sized length) : src.rest.Sized length :=
  fun place => h (place.modifyHead (· + 1))

end History

namespace Plan

/-- The reads of a trail stay within the bounds, and only an unknown tag stops it. -/
structure Reads (policy : UnknownTagPolicy) (t : Trail) (lo hi : Nat) : Prop where
  within : t.All (Step.ReadsWithin lo hi)
  ends : t.stop = none ∨ policy = .fail ∧ ∃ tag, t.stop = some (Fault.unknownTag tag)

variable {order : ByteOrder} {policy : UnknownTagPolicy} {length : Nat}

theorem Reads.mono {t : Trail} {lo hi lo' hi' : Nat} (h : Reads policy t lo hi) (hlo : lo' ≤ lo)
    (hhi : hi ≤ hi') : Reads policy t lo' hi' :=
  ⟨h.within.imp fun _ hs => hs.mono hlo hhi, h.ends⟩

theorem Reads.andThen {t u : Trail} {lo hi : Nat} (ht : Reads policy t lo hi)
    (hu : Reads policy u lo hi) : Reads policy (t.andThen u) lo hi := by
  refine ⟨ht.within.andThen hu.within, ?_⟩
  rcases ht.ends with hstop | ⟨hpolicy, tag, hstop⟩
  · rw [Trail.stop_andThen hstop]
    exact hu.ends
  · rw [Trail.andThen_of_stop hstop]
    exact Or.inr ⟨hpolicy, tag, hstop⟩

theorem reads_done (lo hi : Nat) : Reads policy .done lo hi :=
  ⟨Trail.all_done, Or.inl rfl⟩

theorem reads_writing (start : Num) (bytes : List UInt8) (lo hi : Nat) :
    Reads policy (.writing start bytes) lo hi :=
  ⟨Trail.all_writing trivial, Or.inl rfl⟩

theorem reads_iterate {part : Nat → Trail} {i count lo hi : Nat}
    (h : ∀ j, i ≤ j → j < i + count → Reads policy (part j) lo hi) :
    Reads policy (.iterate part i count) lo hi := by
  induction count generalizing i with
  | zero => exact reads_done lo hi
  | succ count ih =>
      rw [Trail.iterate]
      refine (h i (Nat.le_refl i) (by omega)).andThen (ih fun j hij hj => ?_)
      exact h j (by omega) (by omega)

/-- A read within the source succeeds. -/
theorem reads_reading (hlimit : length < exactLimit) {src : Memory} (hsrc : src.size = length)
    {s : Num} {n width lo hi : Nat} (hn : s.Is n) (hlo : lo ≤ n) (hhi : n + width ≤ hi)
    (hsize : hi ≤ length) {next : List UInt8 → Trail}
    (h : ∀ bytes, src.load s width = .ok bytes → Reads policy (next bytes) lo hi) :
    Reads policy (.reading src s width next) lo hi := by
  have haddr : src.Addressable := by rwa [Memory.Addressable, hsrc]
  have hfits : n + width ≤ src.size := by omega
  have hload := Memory.load_of_is haddr hn hfits
  obtain ⟨hwithin, hends⟩ := h _ hload
  refine ⟨Trail.all_reading ⟨n, hn, hlo, hhi⟩ fun bytes hbytes => (h bytes hbytes).within, ?_⟩
  rw [Trail.reading, hload]
  exact hends

theorem reads_storing {p : Prim} {x : Scalar} {k : Nat} (h : p.word x = .ok k) (d : Num)
    (lo hi : Nat) : Reads policy (storing order p x d) lo hi := by
  rw [storing, h]
  simp only
  split
  · exact reads_done lo hi
  · exact reads_writing _ _ lo hi

theorem reads_unmatched (name : Text) (tag lo hi : Nat) :
    Reads policy (unmatchedTrail policy name tag) lo hi := by
  cases policy with
  | fail => exact ⟨Trail.all_stopped _, Or.inr ⟨rfl, tag, rfl⟩⟩
  | ignore =>
      refine ⟨fun step hstep => ?_, Or.inl rfl⟩
      simp only [unmatchedTrail, List.mem_singleton] at hstep
      subst hstep
      trivial

/-- The narrower source primitives have bytes. -/
theorem ne_unit_of_widens {p : Prim} {q : PrimName} (h : q ∈ p.widensFrom) : q ≠ .unit := by
  rintro rfl
  revert h
  cases p <;> decide

/-! ## Conversions that read nothing -/

/-- What is to be shown of the parts of a type: a conversion that reads nothing takes no step. -/
def UnreadIdle (order : ByteOrder) (policy : UnknownTagPolicy) (dest : Dest) : Prop :=
  ∀ {desc : Desc} {plan : Plan}, Built dest desc plan → dest.Measured desc →
    dest.reach desc = 0 → ∀ (src : History) (s d : Num), plan.trail order policy src s d = .done

theorem unreadIdle_prim (p : Prim) : UnreadIdle order policy (.ofPrim p) := by
  intro desc plan built _ hreach src s d
  rw [Dest.reach_prim] at hreach
  rcases built_prim built with ⟨rfl, rfl⟩ | ⟨q, hq, rfl, rfl⟩
  · rw [Desc.bytes_prim] at hreach
    have hunit : p = .unit := by
      revert hreach
      cases p <;> decide
    rw [if_pos hunit, trail]
    rfl
  · rw [Desc.bytes_prim] at hreach
    have hunit : q = .unit := by
      revert hreach
      cases q <;> decide
    exact absurd hunit (ne_unit_of_widens hq)

theorem unreadIdle_array {surface : Surface} {elem : Dest} {length : Num} {count : Nat}
    (hlength : length.Is count) (h : 0 < count → UnreadIdle order policy elem) :
    UnreadIdle order policy (.array surface elem length count) := by
  intro desc plan built measured hreach src s d
  obtain ⟨elemDesc, n, step, convert, rfl, -, hconvert, -, rfl⟩ := built_array built
  rw [Dest.reach] at hreach
  rw [Dest.Measured] at measured
  rw [hlength.toNat?, Option.getD_some, trail]
  rcases Nat.eq_zero_or_pos count with rfl | hpos
  · rfl
  · obtain ⟨⟨hmeasured, hle⟩, -⟩ := measured hpos
    have hbytes := (Nat.mul_eq_zero.mp hreach).resolve_left hpos.ne'
    exact Trail.iterate_done (fun i => h hpos hconvert hmeasured (by omega) _ _ _) 0 count

theorem unreadIdle_fields {fields : List (Field Desc)} {slots : List (Slot Dest)}
    {plans : List (FieldPlan Plan)} (built : List.Forall₂ (SlotBuilt fields) slots plans)
    (measured : Dest.SlotsMeasured fields slots)
    (h : ∀ slot ∈ slots, UnreadIdle order policy slot.type)
    (hreach : Dest.slotsReach fields slots = 0) (src : History) (s d : Num) :
    trailFields order policy src plans s d = .done := by
  induction built generalizing src with
  | nil => rfl
  | @cons slot plan slots plans hbuilt _ ih =>
      obtain ⟨hfirst, hrest⟩ := List.forall_mem_cons.mp h
      obtain ⟨field, hfield, -, -, hconvert⟩ := hbuilt
      rw [Dest.SlotsMeasured] at measured
      obtain ⟨hle, hles⟩ := Dest.le_slotsReach hfield slots
      rw [trailFields, hfirst hconvert (measured.1 field hfield).2 (by omega),
        ih measured.2 hrest (by omega)]
      rfl

/-- **A conversion that reads nothing takes no step**, wherever its items lie. -/
theorem idle_of_unread {dest : Dest} (counted : dest.Counted) : UnreadIdle order policy dest := by
  induction counted with
  | prim p => exact unreadIdle_prim p
  | array _ hlength ih => exact unreadIdle_array hlength ih
  | record _ ih =>
      intro desc plan built measured hreach src s d
      obtain ⟨fields, plans, rfl, rfl, hplans⟩ := built_record built
      rw [Dest.reach] at hreach
      rw [Dest.Measured] at measured
      rw [trail]
      exact unreadIdle_fields hplans measured ih hreach src s d
  | @variant surface cases payloadOffset decodedAt _ _ =>
      intro desc plan built _ hreach
      obtain ⟨ctors, -, -, rfl, -, -, -, -⟩ := built_variant built
      have hpast := four_le_payloadStart ctors cases
      rw [Dest.reach] at hreach
      omega

/-! ## Reads within the reach -/

def ReadsReach (order : ByteOrder) (policy : UnknownTagPolicy) (length : Nat) (dest : Dest) : Prop :=
  ∀ {src : History} {desc : Desc} {plan : Plan} {s d : Num} {n : Nat}, src.Sized length →
    Built dest desc plan → dest.Measured desc → s.Is n → n + dest.reach desc ≤ length →
    Reads policy (plan.trail order policy src s d) n (n + dest.reach desc)

theorem reads_prim (hlimit : length < exactLimit) (p : Prim) :
    ReadsReach order policy length (.ofPrim p) := by
  intro src desc plan s d n hsrc built _ hn hfit
  rw [Dest.reach_prim] at hfit ⊢
  rcases built_prim built with ⟨rfl, rfl⟩ | ⟨q, hq, rfl, rfl⟩
  · rw [Desc.bytes_prim] at hfit ⊢
    by_cases hunit : p = .unit
    · subst hunit
      rw [if_pos rfl, trail]
      exact reads_done _ _
    · rw [if_neg hunit, trail]
      exact reads_reading hlimit (hsrc []) hn (Nat.le_refl n) (Nat.le_refl _) hfit
        fun bytes _ => reads_writing d bytes _ _
  · rw [Desc.bytes_prim] at hfit ⊢
    rw [trail, widening, if_neg (ne_unit_of_widens hq)]
    refine reads_reading hlimit (hsrc []) hn (Nat.le_refl n) (Nat.le_refl _) hfit
      fun bytes hload => ?_
    have hlt := Word.ofBytes_lt order bytes
    rw [Memory.length_of_load hload] at hlt
    obtain ⟨k, hk, -⟩ := Prim.word_eq_cast hq hlt
    exact reads_storing hk d _ _

theorem reads_array (hlimit : length < exactLimit) {surface : Surface} {elem : Dest} {items : Num}
    {count : Nat} (helem : 0 < count → elem.Counted) (hitems : items.Is count)
    (h : 0 < count → ReadsReach order policy length elem) :
    ReadsReach order policy length (.array surface elem items count) := by
  intro src desc plan s d n hsrc built measured hn hfit
  by_cases hempty : Dest.reach (.array surface elem items count) desc = 0
  · rw [idle_of_unread (.array helem hitems) built measured hempty]
    exact reads_done _ _
  · obtain ⟨elemDesc, m, step, convert, rfl, -, hconvert, hstep, rfl⟩ := built_array built
    rw [Dest.reach] at hempty hfit ⊢
    rw [Dest.Measured] at measured
    obtain ⟨hpos, hcount⟩ := items_lt hempty (by omega)
    obtain ⟨⟨hmeasured, hle⟩, step', hstep', hstepIs⟩ := measured hpos
    obtain rfl : step = step' := Except.ok.inj (hstep.symm.trans hstep')
    rw [hitems.toNat?, Option.getD_some, trail]
    refine reads_iterate fun j _ hj => ?_
    obtain ⟨hat, hend⟩ := hstepIs.item (j := j) (by omega) hcount.le (by omega)
    refine (h hpos (hsrc.part j) hconvert hmeasured (hn.add hat (by omega)) (by omega)).mono ?_ ?_
    · omega
    · omega

theorem reads_fields (hlimit : length < exactLimit) {fields : List (Field Desc)}
    {slots : List (Slot Dest)} {plans : List (FieldPlan Plan)}
    (built : List.Forall₂ (SlotBuilt fields) slots plans)
    (measured : Dest.SlotsMeasured fields slots)
    (h : ∀ slot ∈ slots, ReadsReach order policy length slot.type) {src : History}
    (hsrc : src.Sized length) {s d : Num} {n : Nat} (hn : s.Is n)
    (hfit : n + Dest.slotsReach fields slots ≤ length) :
    Reads policy (trailFields order policy src plans s d) n
      (n + Dest.slotsReach fields slots) := by
  induction built generalizing src with
  | nil =>
      rw [trailFields]
      exact reads_done _ _
  | @cons slot plan slots plans hbuilt _ ih =>
      obtain ⟨field, hfield, hfrom, hto, hconvert⟩ := hbuilt
      rw [Dest.SlotsMeasured] at measured
      obtain ⟨hoffset, hmeasured⟩ := measured.1 field hfield
      obtain ⟨hfirst, hrest⟩ := Dest.le_slotsReach hfield slots
      have hs : (s + field.offset).Is (n + field.start) := hn.add hoffset (by omega)
      rw [trailFields, hfrom, hto]
      refine Reads.andThen ?_ ?_
      · refine (h slot List.mem_cons_self (hsrc.part 0) hconvert hmeasured hs (by omega)).mono ?_ ?_
        · omega
        · omega
      · refine (ih measured.2 (fun g hg => h g (List.mem_cons_of_mem _ hg)) hsrc.rest
          (by omega)).mono ?_ ?_
        · omega
        · omega

theorem reads_variant (hlimit : length < exactLimit) {surface : Surface} {cases : List (Case Dest)}
    {payloadOffset decodedAt : Num} (h : ∀ c ∈ cases, ReadsReach order policy length c.type) :
    ReadsReach order policy length (.variant surface cases payloadOffset decodedAt) := by
  intro src desc plan s d n hsrc built measured hn hfit
  obtain ⟨ctors, maxAlign, arms, rfl, rfl, hstart, -, harms⟩ := built_variant built
  rw [Dest.reach] at hfit ⊢
  rw [Dest.Measured] at measured
  rw [measured.payloadAt] at hstart
  rw [Dest.casesMeasured_iff] at measured
  have hpast := four_le_payloadStart ctors cases
  rw [trail, hstart]
  refine reads_reading hlimit (hsrc []) hn (Nat.le_refl n) (by omega) hfit fun bytes _ => ?_
  rcases trailArm_taken harms (Word.ofBytes order bytes) with
    ⟨-, htrail⟩ | ⟨c, ctor, convert, -, hmem, hctor, hconvert, htrail⟩
  · rw [htrail]
    exact reads_unmatched _ _ _ _
  · -- the payload of the constructor that is taken lies behind the tag
    have hle := Dest.le_casesReach hmem hctor
    have hpay : (s + .ofNat (payloadStart ctors cases)).Is (n + payloadStart ctors cases) :=
      hn.add (is_ofNat (by omega)) (by omega)
    rw [htrail]
    refine (reads_writing _ _ _ _).andThen ?_
    refine (h c hmem (hsrc.part 0) hconvert (measured c hmem ctor hctor).2 hpay (by omega)).mono ?_ ?_
    · omega
    · omega

/-- **A run reads within the reach of its pair, and only an unknown tag stops it.** -/
theorem reads_reach (hlimit : length < exactLimit) {dest : Dest} (counted : dest.Counted) :
    ReadsReach order policy length dest := by
  -- one lemma for each kind of node
  induction counted with
  | prim p => exact reads_prim hlimit p
  | array helem hlength ih => exact reads_array hlimit helem hlength ih
  | record _ ih =>
      intro src desc plan s d n hsrc built measured hn hfit
      obtain ⟨fields, plans, rfl, rfl, hplans⟩ := built_record built
      rw [Dest.reach] at hfit ⊢
      rw [Dest.Measured] at measured
      rw [trail]
      exact reads_fields hlimit hplans measured ih hsrc hn hfit
  | variant _ ih => exact reads_variant hlimit ih

end Plan

end Relayout

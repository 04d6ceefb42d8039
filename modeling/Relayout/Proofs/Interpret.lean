import Relayout.Proofs.Frame
import Relayout.Proofs.Reads
import Relayout.Proofs.Described

/-!
# What a conversion yields

`interpret` reads the value of a source straight from its bytes, in exact
positions and without a destination: a primitive is cast from the source
primitive, items follow one another at the size of the source item, a slot is
the first source field of its name, and a case is the one that is taken for the
tag. Converting and then decoding the destination yields this value, or stops
with the same unknown tag.

The two are compared along the trail of the plan. A memory that holds every
write of the trail decodes to what was interpreted, so nothing has to be said
about the order of the writes once none of them meets another.
-/

namespace Relayout

open Relayout.Num

/-! ## Interpretation -/

/-- The word of so many bytes at a position. -/
def Memory.wordAt (m : Memory) (order : ByteOrder) (n width : Nat) : Nat :=
  Word.ofBytes order (m.slice n width)

theorem Memory.wordAt_lt {m : Memory} (order : ByteOrder) {n width : Nat} (h : n + width ≤ m.size) :
    m.wordAt order n width < Word.range width := by
  have hlt := Word.ofBytes_lt order (m.slice n width)
  rwa [length_slice h] at hlt

theorem Memory.loadWord_of_is {m : Memory} (hm : m.Addressable) (order : ByteOrder) {start : Num}
    {n width : Nat} (hn : start.Is n) (h : n + width ≤ m.size) :
    m.loadWord order start width = .ok (m.wordAt order n width) := by
  rw [loadWord, load_of_is hm hn h]
  rfl

namespace Dest

mutual

/-- The value of the source at position `n`, as a value of the destination type. -/
def interpret (order : ByteOrder) (src : Memory) : Dest → Desc → (n : Nat) → Except Fault Value
  | .prim _ _ _ codec, desc, n =>
    match desc with
    | .prim name =>
      match PrimName.ofName? name with
      | some q => .ok (codec.cast (Scalar.ofWord (src.wordAt order n q.size) q))
      | none => .error (.defect .wrongKind)
    | _ => .error (.defect .wrongKind)
  | .array _ elem _ count, desc, n =>
    match desc with
    | .array elemDesc _ => do
      return .list (← (List.range' 0 count).mapM fun i =>
        interpret order src elem elemDesc (n + i * elemDesc.bytes))
    | _ => .error (.defect .wrongKind)
  | .record _ slots, desc, n =>
    match desc with
    | .struct fields => do
      return .ofFields (← interpretSlots order src fields slots n)
    | _ => .error (.defect .wrongKind)
  | .variant _ cases _ _, desc, n =>
    match desc with
    | .variant ctors =>
      let tag := src.wordAt order n 4
      (interpretCase order src ctors (.ofNat tag) cases (n + Plan.payloadStart ctors cases)).getD
        (.error (.unknownTag tag))
    | _ => .error (.defect .wrongKind)

/-- The parts of a record in order, each from the first source field of its name. -/
def interpretSlots (order : ByteOrder) (src : Memory) (fields : List (Field Desc)) :
    List (Slot Dest) → (n : Nat) → Except Fault (List (Text × Value))
  | [], _ => .ok []
  | slot :: rest, n =>
    match fields.find? (·.name = slot.name) with
    | some f => do
      let v ← interpret order src slot.type f.type (n + f.start)
      return (slot.name, v) :: (← interpretSlots order src fields rest n)
    | none => .error (.defect .wrongKind)

/-- The payload of the last case, in order, whose first source constructor bears the tag. -/
def interpretCase (order : ByteOrder) (src : Memory) (ctors : List (Ctor Desc)) (tag : Num) :
    List (Case Dest) → (n : Nat) → Option (Except Fault Value)
  | [], _ => none
  | c :: rest, n =>
    (interpretCase order src ctors tag rest n).or
      (((ctors.find? (·.name = c.name)).filter (·.id.eqv tag)).map fun ctor => do
        return .tagged c.name (← interpret order src c.type ctor.type n))

end

theorem interpret_prim (order : ByteOrder) (src : Memory) (p : Prim) (q : PrimName) (n : Nat) :
    (ofPrim p).interpret order src (.prim q.name) n =
      .ok (p.cast (Scalar.ofWord (src.wordAt order n q.size) q)) := by
  rw [ofPrim, interpret]
  simp only [PrimName.ofName?_name]

theorem decode_prim (m : Memory) (order : ByteOrder) (p : Prim) (start : Num) :
    (ofPrim p).decode m order start = ofDefect (p.load m order start) := by
  rw [ofPrim, decode]

/-- The word of its own source primitive is decoded as that primitive is cast. -/
theorem decode_prim_of_word {m : Memory} {order : ByteOrder} {p : Prim} {start : Num} {k : Nat}
    (hk : k < Word.range p.source.size)
    (h : p ≠ .unit → m.loadWord order start p.source.size = .ok k) :
    (ofPrim p).decode m order start = .ok (p.cast (Scalar.ofWord k p.source)) := by
  rw [decode_prim, Prim.load_eq]
  by_cases hunit : p = .unit
  · subst hunit
    rfl
  · have hload : m.loadWord order start p.size = .ok k := h hunit
    have hcast : Prim.value k p = p.cast (Scalar.ofWord k p.source) := Prim.value_eq_cast p hk
    rw [if_neg hunit, hload, ← hcast]
    rfl

theorem interpretCase_eq (order : ByteOrder) (src : Memory) (ctors : List (Ctor Desc)) (tag : Num)
    (cases : List (Case Dest)) (n : Nat) : interpretCase order src ctors tag cases n =
      (Plan.taken ctors tag cases).map fun found => do
        return .tagged found.1.name (← interpret order src found.1.type found.2.type n) := by
  induction cases with
  | nil => rw [interpretCase, Plan.taken, Option.map_none]
  | cons c rest ih =>
      rw [interpretCase, Plan.taken, ih, Option.map_or, Option.map_map]
      rfl

/-- The payload of a case is decoded for its own tag. -/
theorem decodeCase_of_mem {m : Memory} {order : ByteOrder} {cases : List (Case Dest)}
    {c : Case Dest} (hc : c ∈ cases) (hids : cases.Pairwise fun c c' => c.id ≠ c'.id) (start : Num) :
    decodeCase m order c.id.toNat cases start = do
      return .tagged c.name (← decode m order c.type start) := by
  induction cases with
  | nil => cases hc
  | cons first rest ih =>
      obtain ⟨hfirst, hrest⟩ := List.pairwise_cons.mp hids
      rw [decodeCase]
      rcases List.mem_cons.mp hc with rfl | hc
      · rw [if_pos rfl]
      · have hne : first.id.toNat ≠ c.id.toNat := fun h =>
          hfirst c hc (UInt32.toNat_inj.mp h)
        rw [if_neg hne, ih hc hrest]

end Dest

/-! ## Agreement along a trail -/

namespace Trail

variable {α β γ : Type}

/-- In a memory that holds what the trail writes, decoding yields what was
expected; if the trail stops, the fault was expected. -/
def Agrees (t : Trail) (m : Memory) (expected decoded : Except Fault α) : Prop :=
  t.All (Step.Held m) →
    match t.stop with
    | some f => expected = .error f
    | none => ∃ a, expected = .ok a ∧ decoded = .ok a

theorem All.left {P : Step → Prop} {t u : Trail} (h : (t.andThen u).All P) : t.All P := by
  obtain ⟨steps, _ | f⟩ := t
  · exact fun step hstep => h step (List.mem_append_left _ hstep)
  · exact h

theorem All.right {P : Step → Prop} {t u : Trail} (h : (t.andThen u).All P) (hstop : t.stop = none) :
    u.All P := by
  obtain ⟨steps, stop⟩ := t
  cases hstop
  exact fun step hstep => h step (List.mem_append_right _ hstep)

theorem Agrees.map {t : Trail} {m : Memory} {x y : Except Fault α} (h : t.Agrees m x y) (f : α → β) :
    t.Agrees m (do return f (← x)) (do return f (← y)) := by
  intro hheld
  have hxy := h hheld
  cases hstop : t.stop with
  | some fault =>
      rw [hstop] at hxy
      simp only at hxy ⊢
      rw [hxy]
      rfl
  | none =>
      rw [hstop] at hxy
      obtain ⟨a, rfl, rfl⟩ := hxy
      exact ⟨f a, rfl, rfl⟩

/-- Parts that agree one after the other agree together. -/
theorem Agrees.andThen {t u : Trail} {m : Memory} {x y : Except Fault α} {xs ys : Except Fault β}
    (ht : t.Agrees m x y) (hu : u.Agrees m xs ys) (f : α → β → γ) :
    (t.andThen u).Agrees m (do let a ← x; return f a (← xs)) (do let a ← y; return f a (← ys)) := by
  intro hheld
  have hxy := ht hheld.left
  cases hstop : t.stop with
  | some fault =>
      rw [andThen_of_stop hstop, hstop]
      rw [hstop] at hxy
      simp only at hxy ⊢
      rw [hxy]
      rfl
  | none =>
      have hxys := hu (hheld.right hstop)
      rw [hstop] at hxy
      obtain ⟨a, rfl, rfl⟩ := hxy
      rw [stop_andThen hstop]
      cases hstop' : u.stop with
      | some fault =>
          rw [hstop'] at hxys
          simp only at hxys ⊢
          rw [hxys]
          rfl
      | none =>
          rw [hstop'] at hxys
          obtain ⟨b, rfl, rfl⟩ := hxys
          exact ⟨f a b, rfl, rfl⟩

theorem agrees_iterate {m : Memory} {part : Nat → Trail} {expected : Nat → Except Fault Value}
    {item : Num → Except Fault Value} {start step : Num} {i count : Nat}
    (h : ∀ j, i ≤ j → j < i + count →
      (part j).Agrees m (expected j) (item (start + Num.ofNat j * step))) :
    (iterate part i count).Agrees m ((List.range' i count).mapM expected)
      (Dest.decodeItems item start step i count) := by
  induction count generalizing i with
  | zero => exact fun _ => ⟨[], rfl, rfl⟩
  | succ count ih =>
      rw [iterate, List.range'_succ, List.mapM_cons, Dest.decodeItems]
      refine (h i (Nat.le_refl i) (by omega)).andThen (ih fun j hij hj => ?_) List.cons
      exact h j (by omega) (by omega)

theorem agrees_reading {src m : Memory} {start : Num} {width : Nat} {bytes : List UInt8}
    {next : List UInt8 → Trail} {x y : Except Fault α} (hload : src.load start width = .ok bytes)
    (h : (next bytes).Agrees m x y) : (reading src start width next).Agrees m x y := by
  intro hheld
  rw [reading, hload] at hheld ⊢
  exact h fun step hstep => hheld step (List.mem_cons_of_mem _ hstep)

/-- A word that was written is loaded again. -/
theorem agrees_writing {m : Memory} (order : ByteOrder) {start : Num} {bytes : List UInt8}
    {v : α} {y : Except Fault α}
    (h : m.loadWord order start bytes.length = .ok (Word.ofBytes order bytes) → y = .ok v) :
    (writing start bytes).Agrees m (.ok v) y := by
  intro hheld
  have hload : m.load start bytes.length = .ok bytes := hheld _ List.mem_cons_self
  refine ⟨v, rfl, h ?_⟩
  rw [Memory.loadWord, hload]
  rfl

end Trail

/-! ## Plans yield what is interpreted -/

namespace Plan

variable {order : ByteOrder} {src m : Memory}

def Yields (order : ByteOrder) (src m : Memory) (dest : Dest) : Prop :=
  ∀ {desc : Desc} {plan : Plan} {s d : Num} {n : Nat}, Built dest desc plan → desc.Valid →
    desc.Small → s.Is n → n + dest.reach desc ≤ src.size →
    (plan.trail order .fail src s d).Agrees m (dest.interpret order src desc n)
      (dest.decode m order d)

theorem yields_prim (hsrc : src.Addressable) (p : Prim) : Yields order src m (.ofPrim p) := by
  intro desc plan s d n built valid small hn hfit
  rw [Dest.reach_prim] at hfit
  rcases built_prim built with ⟨rfl, rfl⟩ | ⟨q, hq, rfl, rfl⟩
  · rw [Desc.bytes_prim] at hfit
    rw [Dest.interpret_prim]
    have hlt := Memory.wordAt_lt order hfit
    by_cases hunit : p = .unit
    · rw [if_pos hunit, trail]
      intro _
      exact ⟨_, rfl, Dest.decode_prim_of_word hlt fun h => absurd hunit h⟩
    · rw [if_neg hunit, trail]
      have hload := Memory.load_of_is hsrc hn hfit
      refine Trail.agrees_reading hload (Trail.agrees_writing order fun hback => ?_)
      rw [Memory.length_of_load hload] at hback
      exact Dest.decode_prim_of_word hlt fun _ => hback
  · rw [Desc.bytes_prim] at hfit
    rw [Dest.interpret_prim, Dest.decode_prim, Prim.load_eq, trail, widening,
      if_neg (ne_unit_of_widens hq)]
    have hload := Memory.load_of_is hsrc hn hfit
    obtain ⟨k, hk, hvalue⟩ := Prim.word_eq_cast hq (Memory.wordAt_lt order hfit)
    have hunit : p ≠ .unit := by
      rintro rfl
      cases hq
    refine Trail.agrees_reading hload ?_
    rw [storing]
    rw [Memory.wordAt] at hk
    rw [hk]
    simp only [if_neg hunit]
    refine Trail.agrees_writing order fun hback => ?_
    rw [Word.length_toBytes, Word.ofBytes_toBytes] at hback
    rw [hback, ← hvalue]
    rfl

theorem yields_array (hsrc : src.Addressable) {surface : Surface} {elem : Dest} {length : Num}
    {count : Nat} (helem : elem.Laid) (hlength : length.Is count) (hcount : count < exactLimit)
    (h : Yields order src m elem) : Yields order src m (.array surface elem length count) := by
  intro desc plan s d n built valid small hn hfit
  have hlimit : src.size < exactLimit := hsrc
  obtain ⟨elemDesc, k, step, convert, rfl, -, hconvert, hstep, rfl⟩ := built_array built
  rw [Dest.reach] at hfit
  rw [hlength.toNat?, Option.getD_some, trail, Dest.interpret, Dest.decode]
  cases valid with
  | array hvalid _ =>
      cases small with
      | array _ hsmall =>
          have hle := Dest.reach_le_bytes helem hconvert hvalid hsmall hstep
          have hstepIs := (Desc.size_is hvalid hsmall hstep).1
          refine Trail.Agrees.map (Trail.agrees_iterate fun j _ hj => ?_) Value.list
          obtain ⟨hat, hend⟩ := hstepIs.item (j := j) (by omega) hcount.le (by omega)
          exact h hconvert hvalid hsmall (hn.add hat (by omega)) (by omega)

theorem yields_fields (hsrc : src.Addressable) {fields : List (Field Desc)}
    {slots : List (Slot Dest)} {plans : List (FieldPlan Plan)}
    (built : List.Forall₂ (SlotBuilt fields) slots plans)
    (hoffsets : ∀ f ∈ fields, ∃ o, f.offset.Is o) (hvalid : ∀ f ∈ fields, f.type.Valid)
    (hsmall : ∀ f ∈ fields, f.type.Small) (h : ∀ slot ∈ slots, Yields order src m slot.type)
    {start finish : Nat} (placed : Dest.Placed slots start finish) {s d : Num} {n : Nat}
    (hn : s.Is n) (hfit : n + Dest.slotsReach fields slots ≤ src.size) :
    (trailFields order .fail src plans s d).Agrees m
      (Dest.interpretSlots order src fields slots n) (Dest.decodeSlots m order slots d) := by
  rw [Memory.Addressable] at hsrc
  induction built generalizing start with
  | nil =>
      rw [trailFields, Dest.interpretSlots, Dest.decodeSlots]
      exact fun _ => ⟨[], rfl, rfl⟩
  | @cons slot plan slots plans hbuilt _ ih =>
      obtain ⟨field, hfield, hfrom, hto, hconvert⟩ := hbuilt
      obtain ⟨p, -, hdecoded, -, hplaced⟩ := placed
      have hmem := List.mem_of_find?_eq_some hfield
      obtain ⟨hfirst, hrest⟩ := Dest.le_slotsReach hfield slots
      have hs : (s + field.offset).Is (n + field.start) :=
        hn.add (Field.start_is (hoffsets field hmem)) (by omega)
      rw [trailFields, Dest.interpretSlots, Dest.decodeSlots, hfield, hfrom, hto, hdecoded]
      refine Trail.Agrees.andThen ?_ ?_ fun v vs => (slot.name, v) :: vs
      · exact h slot List.mem_cons_self hconvert (hvalid field hmem) (hsmall field hmem) hs (by omega)
      · exact ih (fun g hg => h g (List.mem_cons_of_mem _ hg)) hplaced (by omega)

/-- In a memory that holds the tag of a case, a variant is decoded as that case. -/
theorem decode_of_held {surface : Surface} {cases : List (Case Dest)} {payloadOffset : Num}
    {c : Case Dest} (hc : c ∈ cases) (hids : cases.Pairwise fun c c' => c.id ≠ c'.id) {d : Num}
    {t : Trail} (hheld : ((Trail.writing d (Word.toBytes order 4 c.id.toNat)).andThen t).All
      (Step.Held m)) :
    (Dest.variant surface cases payloadOffset payloadOffset).decode m order d = do
      return .tagged c.name (← c.type.decode m order (d + payloadOffset)) := by
  have hload : m.load d 4 = .ok (Word.toBytes order 4 c.id.toNat) := by
    have hstep := hheld.left _ List.mem_cons_self
    rwa [Step.Held, Word.length_toBytes] at hstep
  have hid : c.id.toNat % Word.range 4 = c.id.toNat := Nat.mod_eq_of_lt (UInt32.toNat_lt c.id)
  rw [Dest.decode, Memory.loadWord, hload]
  simp only [Except.map, Dest.ofDefect, Word.ofBytes_toBytes, hid]
  exact Dest.decodeCase_of_mem hc hids (d + payloadOffset)

theorem yields_variant (hsrc : src.Addressable) {surface : Surface} {cases : List (Case Dest)}
    {payloadOffset : Num} (hids : cases.Pairwise fun c c' => c.id ≠ c'.id)
    (h : ∀ c ∈ cases, Yields order src m c.type) :
    Yields order src m (.variant surface cases payloadOffset payloadOffset) := by
  intro desc plan s d n built valid small hn hfit
  have hlimit : src.size < exactLimit := hsrc
  obtain ⟨ctors, maxAlign, arms, rfl, rfl, hstart, -, harms⟩ := built_variant built
  rw [Dest.reach] at hfit
  rw [payloadAt_of_definite (definite_of_small small cases)] at hstart
  have hpast := four_le_payloadStart ctors cases
  have htag : n + 4 ≤ src.size := by omega
  rw [trail, hstart]
  refine Trail.agrees_reading (Memory.load_of_is hsrc hn htag) ?_
  rw [← Memory.wordAt, Dest.interpret]
  simp only [Dest.interpretCase_eq]
  rcases trailArm_taken harms (src.wordAt order n 4) with
    ⟨htaken, htrail⟩ | ⟨c, ctor, convert, htaken, hmem, hctor, hconvert, htrail⟩
  · rw [htaken, htrail]
    exact fun _ => rfl
  · have hfound := List.mem_of_find?_eq_some hctor
    have hle := Dest.le_casesReach hmem hctor
    have hpay : (s + .ofNat (payloadStart ctors cases)).Is (n + payloadStart ctors cases) :=
      hn.add (is_ofNat (by omega)) (by omega)
    rw [htaken, htrail]
    simp only [Option.map_some, Option.getD_some]
    cases valid with
    | variant _ hvalid =>
        cases small with
        | variant _ hsmall =>
            have hpayload := h c hmem (d := d + payloadOffset) hconvert (hvalid ctor hfound)
              (hsmall ctor hfound) hpay (by omega)
            -- the tag that was written leads the decoder to the same case
            intro hheld
            rw [decode_of_held hmem hids hheld]
            exact (hpayload.map (Value.tagged c.name)) (hheld.right rfl)

/-- **A plan yields what is interpreted.** A memory that holds what the trail of
a plan writes decodes to the interpretation of the source. -/
theorem yields (hsrc : src.Addressable) {dest : Dest} (laid : dest.Laid) :
    Yields order src m dest := by
  -- one lemma for each kind of node
  induction laid with
  | prim p => exact yields_prim hsrc p
  | array helem hlength hcount _ _ ih => exact yields_array hsrc helem hlength hcount ih
  | record _ hplaced _ _ ih =>
      intro desc plan s d n built valid small hn hfit
      obtain ⟨fields, plans, rfl, rfl, hplans⟩ := built_record built
      rw [Dest.reach] at hfit
      rw [trail, Dest.interpret, Dest.decode]
      cases valid with
      | struct hoffsets hvalid =>
          cases small with
          | struct _ hsmall =>
              exact (yields_fields hsrc hplans hoffsets hvalid hsmall ih hplaced hn hfit).map
                Value.ofFields
  | variant _ _ _ _ _ hids _ _ ih => exact yields_variant hsrc hids ih

end Plan

/-! ## Conversions -/

namespace Converter

/-- The memory that a conversion writes to has exactly the size of its type. -/
theorem size_zeros (n : Nat) : (Memory.zeros n).size = n :=
  Array.size_replicate

/-- Fresh memory is always in range. -/
theorem checkRanges_fresh {c : Converter} (hsize : c.dest.size.Is c.dest.bytes)
    (hlimit : c.dest.bytes < exactLimit) (length : Nat) (s : Num) :
    c.checkRanges length c.dest.bytes s 0 =
      if c.config.boundsCheck then checkRange .source length s c.sourceSize else .ok () := by
  have hdst : checkRange .destination c.dest.bytes 0 c.dest.size = .ok () :=
    (checkRange_ok hlimit (tracks_of_is hsize)).mpr
      ⟨0, is_ofNat (Nat.zero_le _), (Nat.zero_add _).le⟩
  rw [checkRanges, hdst]
  cases checkRange .source length s c.sourceSize with
  | ok _ => rfl
  | error _ => rfl

/-- The trail of a converter reads within the reach of its pair. -/
theorem trail_reads {c : Converter} {dest : Dest} (laid : dest.Laid) {desc : Desc}
    (valid : desc.Valid) (hsmall : desc.Small) (built : c.BuiltFor dest desc) {src : Memory}
    (hsrc : src.Addressable) {s : Num} {n : Nat} (hn : s.Is n)
    (hfit : n + dest.reach desc ≤ src.size) (policy : UnknownTagPolicy) (t : Num) :
    Plan.Reads policy (c.trail policy src s t) n (n + dest.reach desc) := by
  have hlimit : src.size < exactLimit := hsrc
  -- a reach that lies within the source is below the limit, so the extent is exact
  have hextent := (Dest.sourceExtent_tracks laid valid hsmall built.extent).is (by omega)
  obtain ⟨-, hmeasured⟩ :=
    Dest.extentMeasures_of_counted laid.settled.counted built.plan valid built.extent
  obtain ⟨measured, -⟩ := hmeasured (small_of_is hextent (by omega))
  exact Plan.reads_reach hsrc laid.settled.counted (History.sized_always src) built.plan measured
    hn hfit

/-- The conversion of a pair that was built, for any exact layout and any valid
descriptor. It fails just where its trail stops. -/
theorem convert_of_valid {c : Converter} {dest : Dest} (laid : dest.Laid) {desc : Desc}
    (valid : desc.Valid) (hsmall : desc.Small) (built : c.BuiltFor dest desc) {src : Memory}
    (hsrc : src.Addressable) {s : Num} {n : Nat} (hn : s.Is n)
    (hfit : n + dest.reach desc ≤ src.size)
    (hrange : checkRange .source src.size s c.sourceSize = .ok ()) :
    c.convert src s = dest.interpret c.config.byteOrder src desc n ∧
      match (c.trail .fail src s 0).stop with
      | some f => c.convert src s = .error f
      | none => ∃ v, c.convert src s = .ok v := by
  have hsame := built.same
  subst hsame
  obtain ⟨hsize, hlimit⟩ := laid.size_is
  have hzero : (0 : Num).Is 0 := is_ofNat (Nat.zero_le _)
  have hout : (Memory.zeros c.dest.bytes).Addressable := (size_zeros _).trans_lt hlimit
  have hconvert : c.convert src s =
      c.decoded ((c.trail .fail src s 0).on (.zeros c.dest.bytes)) := by
    refine convert_eq built.strict hsize hlimit ?_
    rw [checkRanges_fresh hsize hlimit, hrange, ite_self]
  -- the writes do not meet, so the decoder finds all of them
  have hwrites := trail_writes laid built .fail src s hzero (by omega)
  have hnodup := (Dest.spread_footprint c.config.byteOrder laid src desc s 0).2
  have hfits : 0 + c.dest.bytes ≤ (Memory.zeros c.dest.bytes).size := by
    rw [size_zeros]
    omega
  have hends := (Trail.on_ends hout hwrites.within hfits).1
  have hheld := Trail.held_on hout hwrites.within hfits (hnodup.sublist hwrites.follows.1.sublist)
  have hyields := Plan.yields hsrc laid (d := 0) built.plan valid hsmall hn hfit hheld
  rw [← trail] at hyields
  rw [decoded, hends] at hconvert
  cases hstop : (c.trail .fail src s 0).stop with
  | some f =>
      rw [hstop] at hyields hconvert
      exact ⟨hconvert.trans hyields.symm, hconvert⟩
  | none =>
      rw [hstop] at hyields hconvert
      obtain ⟨v, hv, hdecode⟩ := hyields
      have hok : c.convert src s = .ok v := hconvert.trans hdecode
      exact ⟨hok.trans hv.symm, v, hok⟩

end Converter

end Relayout

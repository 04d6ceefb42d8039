import Relayout.Proofs.Calls
import Relayout.Proofs.Vacant

/-!
# What an application writes

The writes of a run follow the footprint of its pair in order, up to where the
run stops. Hence an application within its range changes no other byte, writes
none twice, and, if it goes through, fixes the bytes that it writes by the
source alone.
-/

namespace Relayout

open Relayout.Num

/-! ## Trails that follow a list of positions -/

namespace Trail

/-- The positions written are those of the list up to the stop. -/
def Follows (t : Trail) (positions : List Nat) : Prop :=
  t.written <+: positions ∧ (t.stop = none → t.written = positions)

variable {t u : Trail} {l l' : List Nat}

theorem follows_done : done.Follows [] :=
  ⟨List.prefix_rfl, fun _ => rfl⟩

theorem follows_stopped (f : Fault) (l : List Nat) : (stopped f).Follows l :=
  ⟨List.nil_prefix, fun h => by cases h⟩

theorem Follows.andThen (ht : t.Follows l) (hu : u.Follows l') : (t.andThen u).Follows (l ++ l') := by
  cases hstop : t.stop with
  | some f =>
      rw [andThen_of_stop hstop]
      exact ⟨ht.1.trans (List.prefix_append l l'), fun h => by rw [hstop] at h; cases h⟩
  | none =>
      rw [Follows, written_andThen hstop, stop_andThen hstop, ht.2 hstop]
      exact ⟨(List.prefix_append_right_inj l).mpr hu.1, fun h => by rw [hu.2 h]⟩

theorem follows_iterate {part : Nat → Trail} {positions : Nat → List Nat} {i count : Nat}
    (h : ∀ j, i ≤ j → j < i + count → (part j).Follows (positions j)) :
    (iterate part i count).Follows ((List.range' i count).flatMap positions) := by
  induction count generalizing i with
  | zero => exact follows_done
  | succ count ih =>
      rw [iterate, List.range'_succ, List.flatMap_cons]
      refine (h i (Nat.le_refl i) (by omega)).andThen (ih fun j hij hj => ?_)
      exact h j (by omega) (by omega)

theorem follows_reading {src : Memory} {start : Num} {width : Nat} {next : List UInt8 → Trail}
    (h : ∀ bytes, src.load start width = .ok bytes → (next bytes).Follows l) :
    (reading src start width next).Follows l := by
  rw [reading]
  cases hload : src.load start width with
  | ok bytes => exact h bytes hload
  | error d => exact follows_stopped (.defect d) l

theorem follows_writing {start : Num} {o : Nat} (ho : start.Is o) (hlimit : o < exactLimit)
    (bytes : List UInt8) : (writing start bytes).Follows (List.range' o bytes.length) := by
  have hwritten : (writing start bytes).written = List.range' o bytes.length := by
    simp [writing, written, Step.positions_write ho hlimit]
  rw [Follows, hwritten]
  exact ⟨List.prefix_rfl, fun _ => rfl⟩

end Trail

namespace Plan

/-- The writes of a trail follow the positions of the list and stay within the bounds. -/
structure Writes (t : Trail) (positions : List Nat) (lo hi : Nat) : Prop where
  follows : t.Follows positions
  within : t.All (Step.WritesWithin lo hi)

variable {order : ByteOrder} {policy : UnknownTagPolicy}

theorem Writes.mono {t : Trail} {l : List Nat} {lo hi lo' hi' : Nat} (h : Writes t l lo hi)
    (hlo : lo' ≤ lo) (hhi : hi ≤ hi') : Writes t l lo' hi' :=
  ⟨h.follows, h.within.imp fun _ hs => hs.mono hlo hhi⟩

theorem Writes.andThen {t u : Trail} {l l' : List Nat} {lo hi : Nat} (ht : Writes t l lo hi)
    (hu : Writes u l' lo hi) : Writes (t.andThen u) (l ++ l') lo hi :=
  ⟨ht.follows.andThen hu.follows, ht.within.andThen hu.within⟩

theorem writes_done (lo hi : Nat) : Writes .done [] lo hi :=
  ⟨Trail.follows_done, Trail.all_done⟩

theorem writes_reading {src : Memory} {s : Num} {width lo hi : Nat} {next : List UInt8 → Trail} {l : List Nat}
    (h : ∀ bytes, src.load s width = .ok bytes → Writes (next bytes) l lo hi) :
    Writes (.reading src s width next) l lo hi :=
  ⟨Trail.follows_reading fun bytes hload => (h bytes hload).follows,
    Trail.all_reading trivial fun bytes hload => (h bytes hload).within⟩

theorem writes_writing {d : Num} {o width : Nat} (ho : d.Is o) (hlimit : o < exactLimit)
    {bytes : List UInt8} (hlength : bytes.length = width) :
    Writes (.writing d bytes) (List.range' o width) o (o + width) := by
  subst hlength
  exact ⟨Trail.follows_writing ho hlimit bytes,
    Trail.all_writing ⟨o, ho, Nat.le_refl o, Nat.le_refl _⟩⟩

theorem writes_storing {p : Prim} {x : Scalar} {d : Num} {o : Nat} (ho : d.Is o)
    (hlimit : o < exactLimit) :
    Writes (storing order p x d) (List.range' o p.size) o (o + p.size) := by
  rcases storing_cases order p x with ⟨e, h⟩ | ⟨rfl, h⟩ | ⟨bytes, hlength, h⟩
  · rw [h]
    exact ⟨Trail.follows_stopped _ _, Trail.all_stopped _⟩
  · rw [h]
    exact writes_done _ _
  · rw [h]
    exact writes_writing ho hlimit hlength

theorem writes_unmatched (name : Text) (tag lo hi : Nat) :
    Writes (unmatchedTrail policy name tag) [] lo hi := by
  cases policy with
  | fail => exact ⟨Trail.follows_stopped _ _, Trail.all_stopped _⟩
  | ignore =>
      refine ⟨⟨List.prefix_rfl, fun _ => rfl⟩, fun step hstep => ?_⟩
      simp only [unmatchedTrail, List.mem_singleton] at hstep
      subst hstep
      trivial

def WritesFootprint (order : ByteOrder) (policy : UnknownTagPolicy) (dest : Dest) : Prop :=
  ∀ {src : History} {desc : Desc} {plan : Plan} {s d : Num} {o : Nat}, Built dest desc plan →
    d.Is o → o + dest.bytes < exactLimit →
    Writes (plan.trail order policy src s d) (dest.footprint order src desc s o) o (o + dest.bytes)

theorem writes_prim (p : Prim) : WritesFootprint order policy (.ofPrim p) := by
  intro src desc plan s d o built ho hlimit
  have hp : (Num.ofNat p.size).Is p.size := is_ofNat (by cases p <;> decide)
  have hbytes : (Dest.ofPrim p).bytes = p.size := Dest.bytes_of_is hp
  have hfoot : (Dest.ofPrim p).footprint order src desc s o = List.range' o p.size := by
    rw [Dest.ofPrim, Dest.footprint]
  rw [hbytes] at hlimit ⊢
  rw [hfoot]
  rcases built_prim built with ⟨-, rfl⟩ | ⟨q, -, -, rfl⟩
  · by_cases hunit : p = .unit
    · subst hunit
      rw [if_pos rfl, trail]
      exact writes_done _ _
    · rw [if_neg hunit, trail]
      exact writes_reading fun bytes hload =>
        writes_writing ho (by omega) (Memory.length_of_load hload)
  · rw [trail, widening]
    split
    · exact writes_storing ho (by omega)
    · exact writes_reading fun bytes _ => writes_storing ho (by omega)

theorem writes_array {surface : Surface} {elem : Dest} {length : Num} {count : Nat}
    (helem : 0 < count → elem.Settled) (hlength : length.Is count)
    (hsize : surface.size.Is (count * elem.bytes)) (hlimit : count * elem.bytes < exactLimit)
    (h : 0 < count → WritesFootprint order policy elem) :
    WritesFootprint order policy (.array surface elem length count) := by
  intro src desc plan s d o built ho hfit
  have hbytes : (Dest.array surface elem length count).bytes = count * elem.bytes :=
    Dest.bytes_of_is hsize
  by_cases hempty : count * elem.bytes = 0
  · have hfoot : (Dest.array surface elem length count).footprint order src desc s o = [] :=
      Dest.footprint_of_empty order (.array helem hlength hsize hlimit) (hbytes.trans hempty) _ _ _ _
    rw [trail_empty_array helem hlength hempty built, hfoot]
    exact writes_done _ _
  · obtain ⟨hpos, hcount⟩ := items_lt hempty hlimit
    rw [hbytes] at hfit ⊢
    obtain ⟨elemDesc, n, step, convert, rfl, -, hconvert, hstep, rfl⟩ := built_array built
    have hstride : elemDesc.stride = step := by rw [Desc.stride, hstep]
    rw [hlength.toNat?, Option.getD_some, trail, Dest.footprint, hstride]
    have hitem : ∀ j, 0 ≤ j → j < 0 + count →
        Writes
          (trail order policy (src.part j) convert (s + .ofNat j * step) (d + .ofNat j * elem.size))
          (elem.footprint order (src.part j) elemDesc (s + .ofNat j * step) (o + j * elem.bytes))
          o (o + count * elem.bytes) := by
      intro j _ hj
      obtain ⟨hat, hend⟩ := (helem hpos).size_is.1.item (j := j) (by omega) hcount.le hlimit
      refine (h hpos hconvert (ho.add hat (by omega)) (by omega)).mono ?_ ?_
      · omega
      · omega
    exact ⟨Trail.follows_iterate fun j h0 hj => (hitem j h0 hj).follows,
      Trail.all_iterate fun j h0 hj => (hitem j h0 hj).within⟩

theorem writes_fields {fields : List (Field Desc)} {slots : List (Slot Dest)}
    {plans : List (FieldPlan Plan)} (built : List.Forall₂ (SlotBuilt fields) slots plans)
    (h : ∀ slot ∈ slots, WritesFootprint order policy slot.type) {start finish : Nat}
    (placed : Dest.Placed slots start finish) {src : History} {s d : Num} {o : Nat} (ho : d.Is o)
    (hlimit : o + finish < exactLimit) :
    Writes (trailFields order policy src plans s d)
      (Dest.slotsFootprint order src fields slots s o) (o + start) (o + finish) := by
  induction built generalizing start src with
  | nil =>
      rw [trailFields, Dest.slotsFootprint]
      exact writes_done _ _
  | @cons slot plan slots plans hbuilt _ ih =>
      obtain ⟨field, hfield, hsrc, hdst, hconvert⟩ := hbuilt
      obtain ⟨p, hp, -, hstart, hrest⟩ := placed
      have hslot : slot.start = p := by rw [Slot.start, hp.toNat?, Option.getD_some]
      have hle := hrest.le
      have hd : (d + slot.offset).Is (o + p) := ho.add hp (by omega)
      rw [trailFields, Dest.slotsFootprint, hfield, hsrc, hdst, hslot]
      refine Writes.andThen ?_ ?_
      · refine (h slot List.mem_cons_self hconvert hd ?_).mono ?_ ?_
        · omega
        · omega
        · omega
      · refine (ih (fun g hg => h g (List.mem_cons_of_mem _ hg)) hrest).mono ?_ ?_
        · omega
        · omega

theorem writes_variant {surface : Surface} {cases : List (Case Dest)} {payloadOffset decodedAt : Num}
    {p n : Nat} (hoffset : payloadOffset.Is p) (htag : 4 ≤ p)
    (hfits : ∀ c ∈ cases, p + c.type.bytes ≤ n) (hpn : p ≤ n) (hsize : surface.size.Is n)
    (h : ∀ c ∈ cases, WritesFootprint order policy c.type) :
    WritesFootprint order policy (.variant surface cases payloadOffset decodedAt) := by
  intro src desc plan s d o built ho hfit
  have hbytes : (Dest.variant surface cases payloadOffset decodedAt).bytes = n :=
    Dest.bytes_of_is hsize
  rw [hbytes] at hfit ⊢
  obtain ⟨ctors, maxAlign, arms, rfl, rfl, hstart, -, harms⟩ := built_variant built
  rw [trail, Dest.footprint]
  refine writes_reading fun bytes hload => ?_
  have htagload : src.here.loadWord order s 4 = .ok (Word.ofBytes order bytes) := by
    rw [Memory.loadWord, hload]
    rfl
  simp only [htagload, Dest.caseFootprint_eq]
  rcases trailArm_taken harms (Word.ofBytes order bytes) with
    ⟨htaken, htrail⟩ | ⟨c, ctor, convert, htaken, hmem, -, hconvert, htrail⟩
  · rw [htaken, htrail]
    exact writes_unmatched _ _ _ _
  · -- the tag is written first, then the payload of its constructor behind it
    have hfit' := hfits c hmem
    have hpay : (d + payloadOffset).Is (o + p) := ho.add hoffset (by omega)
    rw [htaken, htrail]
    simp only [Option.map_some, Option.getD_some, hoffset.toNat?, hstart]
    refine Writes.andThen ?_ ?_
    · refine (writes_writing ho (by omega) (Word.length_toBytes order 4 _)).mono ?_ ?_
      · omega
      · omega
    · refine (h c hmem hconvert hpay (by omega)).mono ?_ ?_
      · omega
      · omega

/-- **The writes of a plan follow the footprint of its pair.** -/
theorem writes_footprint {dest : Dest} (settled : dest.Settled) :
    WritesFootprint order policy dest := by
  -- one lemma for each kind of node
  induction settled with
  | prim p => exact writes_prim p
  | array helem hlength hsize hlimit ih => exact writes_array helem hlength hsize hlimit ih
  | @record surface slots n _ hplaced hsize _ ih =>
      intro src desc plan s d o built ho hfit
      have hbytes : (Dest.record surface slots).bytes = n := Dest.bytes_of_is hsize
      rw [hbytes] at hfit ⊢
      obtain ⟨fields, plans, rfl, rfl, hplans⟩ := built_record built
      rw [trail, Dest.footprint]
      exact writes_fields hplans ih hplaced ho hfit
  | variant _ hoffset htag hfits hpn hsize _ ih =>
      exact writes_variant hoffset htag hfits hpn hsize ih

end Plan

/-! ## Applications -/

/-- The bytes of the sample, with room behind them. -/
def Sample.shared : Heap :=
  ⟨fun _ => ⟨Sample.bytes.bytes ++ Array.replicate 8 0⟩⟩

namespace Converter

/-- The steps of an application at a site. -/
def steps (c : Converter) (x : Site) (t : Num) : Trail :=
  c.trail c.config.unknownTag x.found x.source t

/-- How a call treats its destination. It begins at the site `x`: the pair, where the two values
are, and what is found in the source window. -/
structure Framed (c : Converter) (heap : Heap) (src dst : Handle) (t : Num) (x : Site) : Prop where
  /-- The slot is that of the destination value. -/
  slot : t.Is x.start ∧ x.dest.size.Is x.dest.bytes
  /-- The call takes the steps of its trail. -/
  replay : c.applyIn heap src dst x.source t = (c.steps x t).through heap dst.window
  /-- What is found in the source window is what it shows at moments of the call. -/
  moments : ∀ place, ∃ m ∈ (c.steps x t).moments (heap.shown dst.window),
    x.found.seen place = (heap.put dst.window m).shown src.window
  /-- No byte outside the slot changes, in any buffer. -/
  outside : ∀ b p : Nat,
    ¬(b = dst.window.buffer ∧ ∃ i, x.Covers i ∧ p = dst.window.start + i) →
    ((c.applyIn heap src dst x.source t).heap.buffer b).bytes[p]? = (heap.buffer b).bytes[p]?
  /-- The footprint lies in the slot: the bytes of primitives and of the tags that are taken. -/
  inside : ∀ i ∈ x.footprint c.config.byteOrder, x.Covers i
  /-- The bytes of the footprint are written in order, up to where the call stops. -/
  upTo : (c.steps x t).written <+: x.footprint c.config.byteOrder
  /-- A call that goes through writes all of them. -/
  through : (c.applyIn heap src dst x.source t).stop = none →
    (c.steps x t).written = x.footprint c.config.byteOrder
  /-- No byte is written twice. -/
  once : (c.steps x t).written.Nodup
  /-- A byte that is not written stays as it was. -/
  untouched : ∀ i, i ∉ (c.steps x t).written →
    ((c.applyIn heap src dst x.source t).heap.shown dst.window).bytes[i]? =
      (heap.shown dst.window).bytes[i]?
  /-- A nested variant whose source tag is unknown keeps its whole slot. -/
  unknown : ∀ y, x.Visits c.config.byteOrder y → y.Unknown c.config.byteOrder →
    ∀ i, y.Covers i → ((c.applyIn heap src dst x.source t).heap.shown dst.window).bytes[i]? =
      (heap.shown dst.window).bytes[i]?
  /-- What a call that goes through writes depends on the source alone: any other call that is
  accepted and finds the same in its source window, of which its destination window shares the
  same bytes if any, ends up with the same bytes. -/
  determined : (c.applyIn heap src dst x.source t).stop = none →
    ∀ (heap' : Heap) (src' dst' : Handle), heap'.Holds dst'.window →
      dst'.window.length < exactLimit →
      c.checkRanges src'.window.length dst'.window.length x.source t = .ok () →
      checkRange .destination dst'.window.length t x.dest.size = .ok () →
      heap'.shown src'.window = heap.shown src.window →
      (∀ i j, src'.window.Shares dst'.window i j ↔ src.window.Shares dst.window i j) →
      ∀ i ∈ x.footprint c.config.byteOrder,
        ((c.applyIn heap' src' dst' x.source t).heap.shown dst'.window).bytes[i]? =
          ((c.applyIn heap src dst x.source t).heap.shown dst.window).bytes[i]?
  /-- Windows that share no byte: the source window shows the same before, during and after
  the call. -/
  apart : (∀ i j, ¬src.window.Shares dst.window i j) →
    x.found = .always (heap.shown src.window) ∧
      (c.applyIn heap src dst x.source t).heap.shown src.window = heap.shown src.window
  /-- Applying the same source again changes nothing. -/
  again : (c.applyIn heap src dst x.source t).stop = none →
    (c.applyIn heap src dst x.source t).heap.shown src.window = heap.shown src.window →
    c.applyIn (c.applyIn heap src dst x.source t).heap src dst x.source t =
      c.applyIn heap src dst x.source t

/-- The writes of a converter follow the footprint of its pair. -/
theorem trail_writes {c : Converter} {dest : Dest} (laid : dest.Laid) {desc : Desc}
    (built : c.BuiltFor dest desc) (policy : UnknownTagPolicy) (src : History) (s : Num) {t : Num}
    {o : Nat} (ho : t.Is o) (hend : o + dest.bytes < exactLimit) :
    Plan.Writes (c.trail policy src s t) (dest.footprint c.config.byteOrder src desc s o) o
      (o + dest.bytes) :=
  Plan.writes_footprint laid.settled built.plan ho hend

section

variable {c : Converter} {heap : Heap} {src dst : Handle} {t : Num} {x : Site}

/-- A call within its slot ends as its trail does, and its window holds all that was written. -/
theorem through_held (holds : heap.Holds dst.window) (haddr : dst.window.length < exactLimit)
    {trail : Trail} {lo hi : Nat} (hwithin : trail.All (Step.WritesWithin lo hi))
    (hhi : hi ≤ dst.window.length) (honce : trail.written.Nodup) :
    (trail.through heap dst.window).stop = trail.stop ∧
      (trail.through heap dst.window).events = trail.reports ∧
      trail.All (Step.Held ((trail.through heap dst.window).heap.shown dst.window)) := by
  have hlen : (heap.shown dst.window).size = dst.window.length := Heap.size_shown holds
  have hadd : (heap.shown dst.window).Addressable := by rwa [Memory.Addressable, hlen]
  obtain ⟨hstop, hevents⟩ := Trail.on_ends hadd hwithin (by rwa [hlen])
  rw [Trail.shown_through holds]
  exact ⟨hstop, hevents, Trail.held_on hadd hwithin (by rwa [hlen]) honce⟩

theorem through_determined
    (hof : x.found.Of (heap.source src.window dst.window)
      (c.program c.config.unknownTag x.source t) (c.steps x t) (heap.shown dst.window))
    (holds : heap.Holds dst.window) (haddr : dst.window.length < exactLimit) {lo hi : Nat}
    (hwithin : (c.steps x t).All (Step.WritesWithin lo hi)) (hhi : hi ≤ dst.window.length)
    {heap' : Heap} {src' dst' : Handle} (holds' : heap'.Holds dst'.window)
    (hchecks' : c.checkRanges src'.window.length dst'.window.length x.source t = .ok ())
    (hsource : heap'.shown src'.window = heap.shown src.window)
    (halike : ∀ i j, src'.window.Shares dst'.window i j ↔ src.window.Shares dst.window i j) :
    c.applyIn heap' src' dst' x.source t = (c.steps x t).through heap' dst'.window := by
  refine applyIn_eq hof.follows holds' hchecks'
    (Trail.keeps_alike holds holds' hsource halike hwithin haddr hhi)
    ⟨Heap.size_shown holds, Heap.size_shown holds', fun i j hij => ?_⟩
  -- the bytes that are shared are those of the source windows
  have hleft := Heap.getElem?_shown_of_shares holds (Heap.size_shown holds) hij
  have hright := Heap.getElem?_shown_of_shares holds' (Heap.size_shown holds')
    ((halike i j).mpr hij)
  rw [Heap.put_shown holds] at hleft
  rw [Heap.put_shown holds'] at hright
  rw [← hleft, ← hright, hsource]

theorem through_again
    (hof : x.found.Of (heap.source src.window dst.window)
      (c.program c.config.unknownTag x.source t) (c.steps x t) (heap.shown dst.window))
    (holds : heap.Holds dst.window)
    (hchecks : c.checkRanges src.window.length dst.window.length x.source t = .ok ())
    (hheld : (c.steps x t).All
      (Step.Held (((c.steps x t).through heap dst.window).heap.shown dst.window)))
    (hsource : ((c.steps x t).through heap dst.window).heap.shown src.window =
      heap.shown src.window) :
    c.applyIn ((c.steps x t).through heap dst.window).heap src dst x.source t =
      (c.steps x t).through ((c.steps x t).through heap dst.window).heap dst.window := by
  have hsize : ((c.steps x t).on (heap.shown dst.window)).memory.size = dst.window.length :=
    (Trail.size_on _ _).trans (Heap.size_shown holds)
  rw [Trail.shown_through holds] at hheld
  refine applyIn_eq hof.follows (Trail.holds_through.mpr holds) hchecks
    (Trail.keeps_again holds hsize hheld hsource)
    ⟨Trail.shown_through holds, Heap.size_shown holds, fun i => .inl rfl⟩

/-- A call in an exact layout is framed. -/
theorem framed_of_history (laid : x.dest.Laid) (built : c.BuiltFor x.dest x.desc)
    (hof : x.found.Of (heap.source src.window dst.window)
      (c.program c.config.unknownTag x.source t) (c.steps x t) (heap.shown dst.window))
    (holds : heap.Holds dst.window) (haddr : dst.window.length < exactLimit)
    (hchecks : c.checkRanges src.window.length dst.window.length x.source t = .ok ())
    (ho : t.Is x.start) (hfit : x.start + x.dest.bytes ≤ dst.window.length) :
    c.Framed heap src dst t x := by
  have hend : x.start + x.dest.bytes < exactLimit := Nat.lt_of_le_of_lt hfit haddr
  have hspread : Dest.Spread (x.footprint c.config.byteOrder) x.start (x.start + x.dest.bytes) :=
    Dest.spread_footprint c.config.byteOrder laid x.found x.desc x.source x.start
  have hwrites : Plan.Writes (c.steps x t) (x.footprint c.config.byteOrder) x.start
      (x.start + x.dest.bytes) :=
    trail_writes laid built c.config.unknownTag x.found x.source ho hend
  obtain ⟨hinitial, hall⟩ := hwrites.follows
  have honce : (c.steps x t).written.Nodup := hspread.2.sublist hinitial.sublist
  obtain ⟨hstop, hevents, hheld⟩ := through_held holds haddr hwrites.within hfit honce
  have hcall : c.applyIn heap src dst x.source t = (c.steps x t).through heap dst.window :=
    through_determined hof holds haddr hwrites.within hfit holds hchecks rfl fun _ _ => Iff.rfl
  have huntouched : ∀ i, i ∉ (c.steps x t).written →
      (((c.steps x t).through heap dst.window).heap.shown dst.window).bytes[i]? =
        (heap.shown dst.window).bytes[i]? := by
    intro i hi
    rw [Trail.shown_through holds]
    exact Trail.getElem?_on hi _
  constructor
  case slot => exact ⟨ho, laid.size_is.1⟩
  case replay => exact hcall
  case moments => exact hof.moments
  case outside =>
    rw [hcall]
    intro b p hp
    refine Trail.getElem?_through holds ?_
    rintro ⟨hb, i, hi, hplace⟩
    exact hp ⟨hb, i, hspread.1 i (hinitial.subset hi), hplace⟩
  case inside => exact hspread.1
  case upTo => exact hinitial
  case through =>
    rw [hcall, hstop]
    exact hall
  case once => exact honce
  case untouched =>
    rw [hcall]
    exact huntouched
  case unknown =>
    rw [hcall]
    intro y hvisits hunknown i hi
    refine huntouched i fun hmem => ?_
    exact Site.not_mem_of_unknown hvisits laid.settled hunknown hi (hinitial.subset hmem)
  case determined =>
    rw [hcall]
    intro hdone heap' src' dst' holds' haddr' hchecks' hrange' hsource halike i hi
    have hwritten := hall (hstop.symm.trans hdone)
    obtain ⟨o, ho', hfit'⟩ := (checkRange_ok haddr' (tracks_of_is laid.size_is.1)).mp hrange'
    obtain rfl := ho.unique ho'
    obtain ⟨-, -, hheld'⟩ := through_held holds' haddr' hwrites.within hfit' honce
    rw [through_determined hof holds haddr hwrites.within hfit holds' hchecks' hsource halike]
    exact Trail.getElem?_of_held hheld' hheld (hwritten.symm ▸ hi)
  case apart =>
    rw [hcall]
    intro hapart
    have hshows : ∀ m : Memory, m.size = (heap.shown dst.window).size →
        (heap.put dst.window m).shown src.window = heap.shown src.window := fun m hm =>
      Heap.shown_put_of_apart holds (hm.trans (Heap.size_shown holds)) hapart
    refine ⟨hof.eq_always fun m hm => hshows m ?_, hshows _ (Trail.size_on _ _)⟩
    exact Trail.size_of_mem_moments hm
  case again =>
    rw [hcall]
    intro hdone hsource
    rw [through_again hof holds hchecks hheld hsource,
      Trail.through_of_held (Trail.holds_through.mpr holds) hheld, ← hstop, ← hevents]

end

end Converter

end Relayout

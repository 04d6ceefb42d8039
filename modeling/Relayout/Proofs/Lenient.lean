import Relayout.Proofs.Bounds
import Relayout.Proofs.Native

/-!
# Lenient and strict runs

A variant strays if no constructor is taken for its source tag. A lenient run
passes over it and reports it, a strict run stops there. So as long as nothing
strays both take the same steps, and the first report of the lenient run is
where the strict one stops. Building asks for no policy: the pair is matched
alike under both, and a second, silent match for the strict runs of a lenient
converter adds nothing.
-/

namespace Relayout

open Relayout.Num

/-! ## Strays -/

/-- A variant whose source tag no constructor is taken for. -/
structure Stray where
  name : Text
  tag : Nat
  deriving DecidableEq, Repr

/-- What a lenient run reports of it. -/
def Stray.event (x : Stray) : Event :=
  .unknownTag x.name x.tag

namespace Dest

mutual

/-- The strays that a conversion of the source value at `s` comes to, in order. -/
def strays (order : ByteOrder) (src : Memory) : Dest → Desc → (s : Num) → List Stray
  | .prim .., _, _ => []
  | .array _ elem _ count, desc, s =>
    match desc with
    | .array elemDesc _ =>
      (List.range' 0 count).flatMap fun i =>
        strays order src elem elemDesc (s + .ofNat i * elemDesc.stride)
    | _ => []
  | .record _ slots, desc, s =>
    match desc with
    | .struct fields => slotsStrays order src fields slots s
    | _ => []
  | .variant surface cases _ _, desc, s =>
    match desc with
    | .variant ctors =>
      match src.loadWord order s 4 with
      | .ok tag =>
        (caseStrays order src ctors (.ofNat tag) cases
          (s + Plan.payloadAt ctors cases)).getD [⟨surface.name, tag⟩]
      | .error _ => []
    | _ => []

/-- The strays in the slots of a record. -/
def slotsStrays (order : ByteOrder) (src : Memory) (fields : List (Field Desc)) :
    List (Slot Dest) → (s : Num) → List Stray
  | [], _ => []
  | slot :: rest, s =>
    (match fields.find? (·.name = slot.name) with
      | some f => strays order src slot.type f.type (s + f.offset)
      | none => []) ++ slotsStrays order src fields rest s

/-- The strays in the payload of the constructor that is taken for a tag. -/
def caseStrays (order : ByteOrder) (src : Memory) (ctors : List (Ctor Desc)) (tag : Num) :
    List (Case Dest) → (s : Num) → Option (List Stray)
  | [], _ => none
  | c :: rest, s =>
    (caseStrays order src ctors tag rest s).or
      (((ctors.find? (·.name = c.name)).filter (·.id.eqv tag)).map fun ctor =>
        strays order src c.type ctor.type s)

end

theorem caseStrays_eq (order : ByteOrder) (src : Memory) (ctors : List (Ctor Desc)) (tag : Num)
    (cases : List (Case Dest)) (s : Num) : caseStrays order src ctors tag cases s =
      (Plan.taken ctors tag cases).map fun found =>
        strays order src found.1.type found.2.type s := by
  induction cases with
  | nil => rw [caseStrays, Plan.taken, Option.map_none]
  | cons c rest ih =>
      rw [caseStrays, Plan.taken, ih, Option.map_or, Option.map_map]
      rfl

end Dest

/-! ## Reports of trails -/

namespace Trail

variable {t u t' u' : Trail} {l l' : List Stray}

theorem reports_andThen (h : t.stop = none) : (t.andThen u).reports = t.reports ++ u.reports := by
  obtain ⟨steps, stop⟩ := t
  cases h
  simp [andThen, reports]

theorem stop_andThen_eq_none (h : (t.andThen u).stop = none) : t.stop = none ∧ u.stop = none := by
  cases hstop : t.stop with
  | some f =>
      rw [andThen_of_stop hstop, hstop] at h
      cases h
  | none => exact ⟨rfl, (stop_andThen hstop).symm.trans h⟩

theorem reports_andThen_eq_nil (ht : t.reports = []) (hu : u.reports = []) :
    (t.andThen u).reports = [] := by
  cases hstop : t.stop with
  | some f => rw [andThen_of_stop hstop, ht]
  | none => rw [reports_andThen hstop, ht, hu, List.append_nil]

theorem reports_iterate {part : Nat → Trail} (h : ∀ i, (part i).reports = []) (i count : Nat) :
    (iterate part i count).reports = [] := by
  induction count generalizing i with
  | zero => rfl
  | succ count ih => exact reports_andThen_eq_nil (h i) (ih (i + 1))

theorem reports_reading {src : Memory} {start : Num} {width : Nat} {next : List UInt8 → Trail}
    (h : ∀ bytes, (next bytes).reports = []) : (reading src start width next).reports = [] := by
  rw [reading]
  cases src.load start width with
  | ok bytes => exact h bytes
  | error d => rfl

/-- A replay reports no more than its trail. -/
theorem events_on (t : Trail) (m : Memory) : (t.on m).events <+: t.reports := by
  obtain ⟨steps, stop⟩ := t
  rw [on]
  induction steps generalizing m with
  | nil => exact List.prefix_rfl
  | cons step rest ih =>
      rw [Step.replay]
      cases step with
      | read start width => exact ih m
      | report event => exact (List.prefix_cons_inj event).mpr (ih m)
      | write start bytes =>
          rw [Step.on]
          cases m.store start bytes with
          | ok m' => exact ih m'
          | error d => exact List.nil_prefix

/-- A strict trail beside a lenient one that passes over strays. -/
structure Shadows (strict lenient : Trail) (strays : List Stray) : Prop where
  /-- The lenient trail reports every stray. -/
  reports : lenient.stop = none → lenient.reports = strays.map Stray.event
  /-- Without strays both take the same steps. -/
  same : lenient.stop = none → strays = [] → strict = lenient
  /-- The strict trail stops at the first stray. -/
  first : lenient.stop = none → ∀ stray ∈ strays.head?,
    strict.stop = some (Fault.unknownTag stray.tag)

/-- A trail that reports nothing is its own shadow. -/
theorem shadows_self (h : t.reports = []) : Shadows t t [] :=
  ⟨fun _ => h, fun _ _ => rfl, fun _ _ h => by cases h⟩

/-- Nothing is asked beside a trail that was stopped by a defect. -/
theorem shadows_of_stop {f : Fault} (h : t.stop = some f) : Shadows t' t l := by
  have hno : t.stop ≠ none := by
    rw [h]
    exact Option.some_ne_none f
  exact ⟨fun h => absurd h hno, fun h => absurd h hno, fun h => absurd h hno⟩

theorem Shadows.andThen (ht : Shadows t' t l) (hu : Shadows u' u l') :
    Shadows (t'.andThen u') (t.andThen u) (l ++ l') := by
  constructor
  case reports =>
    intro h
    obtain ⟨hfirst, hrest⟩ := stop_andThen_eq_none h
    rw [reports_andThen hfirst, ht.reports hfirst, hu.reports hrest, List.map_append]
  case same =>
    intro h hnone
    obtain ⟨hfirst, hrest⟩ := stop_andThen_eq_none h
    obtain ⟨hl, hl'⟩ := List.append_eq_nil_iff.mp hnone
    rw [ht.same hfirst hl, hu.same hrest hl']
  case first =>
    intro h stray hstray
    obtain ⟨hfirst, hrest⟩ := stop_andThen_eq_none h
    cases l with
    | nil =>
        -- nothing strays in the first part, so the strict trail goes on like the lenient one
        rw [ht.same hfirst rfl, stop_andThen hfirst]
        exact hu.first hrest stray hstray
    | cons x rest =>
        have hstop := ht.first hfirst stray hstray
        rw [andThen_of_stop hstop, hstop]

theorem shadows_iterate {strict lenient : Nat → Trail} {strays : Nat → List Stray}
    (h : ∀ j, Shadows (strict j) (lenient j) (strays j)) (i count : Nat) :
    Shadows (iterate strict i count) (iterate lenient i count)
      ((List.range' i count).flatMap strays) := by
  induction count generalizing i with
  | zero => exact shadows_self rfl
  | succ count ih =>
      rw [iterate, iterate, List.range'_succ, List.flatMap_cons]
      exact (h i).andThen (ih (i + 1))

theorem shadows_reading {src : Memory} {start : Num} {width : Nat}
    {strict lenient : List UInt8 → Trail}
    (h : ∀ bytes, src.load start width = .ok bytes → Shadows (strict bytes) (lenient bytes) l) :
    Shadows (reading src start width strict) (reading src start width lenient) l := by
  rw [reading, reading]
  cases hload : src.load start width with
  | ok bytes =>
      obtain ⟨hreports, hsame, hfirst⟩ := h bytes hload
      refine ⟨hreports, fun hstop hnone => ?_, hfirst⟩
      simp only [hsame hstop hnone]
  | error d => exact shadows_of_stop rfl

end Trail

/-! ## The two trails of a plan -/

namespace Plan

variable {order : ByteOrder} {src : Memory}

theorem reports_storing (order : ByteOrder) (target : Prim) (x : Scalar) (d : Num) :
    (storing order target x d).reports = [] := by
  rcases storing_cases order target x with ⟨e, h⟩ | ⟨-, h⟩ | ⟨bytes, -, h⟩
  all_goals
    rw [h]
    rfl

theorem reports_widening (order : ByteOrder) (src : Memory) (source : PrimName) (target : Prim)
    (s d : Num) : (widening order src source target s d).reports = [] := by
  rw [widening]
  split
  · exact reports_storing order target _ d
  · exact Trail.reports_reading fun bytes => reports_storing order target _ d

mutual

/-- A strict run reports nothing. -/
theorem reports_strict (order : ByteOrder) (src : Memory) : ∀ (plan : Plan) (s d : Num),
    (trail order .fail src plan s d).reports = []
  | .word width, s, d => by
      rw [trail]
      exact Trail.reports_reading fun bytes => rfl
  | .bytes count, s, d => by
      rw [trail]
      exact Trail.reports_iterate (fun i => Trail.reports_reading fun bytes => rfl) 0 count
  | .widen source target, s, d => by
      rw [trail]
      exact reports_widening order src source target s d
  | .array count elem srcStep dstStep, s, d => by
      rw [trail]
      exact Trail.reports_iterate (fun i => reports_strict order src elem _ _) 0 count
  | .record fields, s, d => by
      rw [trail]
      exact reports_strictFields order src fields s d
  | .variant name maxAlign arms, s, d => by
      rw [trail]
      exact Trail.reports_reading fun bytes => reports_strictArm order src name _ arms _ d

theorem reports_strictFields (order : ByteOrder) (src : Memory) :
    ∀ (fields : List (FieldPlan Plan)) (s d : Num),
      (trailFields order .fail src fields s d).reports = []
  | [], s, d => by
      rw [trailFields]
      rfl
  | f :: rest, s, d => by
      rw [trailFields]
      exact Trail.reports_andThen_eq_nil (reports_strict order src f.convert _ _)
        (reports_strictFields order src rest s d)

theorem reports_strictArm (order : ByteOrder) (src : Memory) :
    ∀ (name : Text) (tag : Nat) (arms : List (Arm Plan)) (s d : Num),
      (trailArm order .fail src name tag arms s d).reports = []
  | name, tag, [], s, d => by
      rw [trailArm]
      rfl
  | name, tag, arm :: rest, s, d => by
      rw [trailArm]
      split
      · exact Trail.reports_andThen_eq_nil rfl (reports_strict order src arm.convert s _)
      · exact reports_strictArm order src name tag rest s d

end

/-- A tag without an arm is a stray. -/
theorem shadows_unmatched (name : Text) (tag : Nat) :
    Trail.Shadows (unmatchedTrail .fail name tag) (unmatchedTrail .ignore name tag)
      [⟨name, tag⟩] := by
  refine ⟨fun _ => rfl, fun _ h => absurd h (List.cons_ne_nil _ _), ?_⟩
  rintro - stray hstray
  cases hstray
  rfl

def StrictShadows (order : ByteOrder) (src : Memory) (dest : Dest) : Prop :=
  ∀ (desc : Desc) (plan : Plan) (s d : Num), Built dest desc plan →
    Trail.Shadows (plan.trail order .fail src s d) (plan.trail order .ignore src s d)
      (dest.strays order src desc s)

theorem shadows_prim (p : Prim) : StrictShadows order src (.ofPrim p) := by
  intro desc plan s d built
  rw [Dest.ofPrim, Dest.strays]
  rcases built_prim built with ⟨-, rfl⟩ | ⟨q, -, -, rfl⟩
  · split
    · rw [trail, trail]
      exact Trail.shadows_self rfl
    · rw [trail, trail]
      exact Trail.shadows_self (Trail.reports_reading fun bytes => rfl)
  · rw [trail, trail]
    exact Trail.shadows_self (reports_widening order src q p s d)

theorem shadows_array {surface : Surface} {elem : Dest} {length : Num} {count : Nat}
    (hlength : length.Is count) (h : 0 < count → StrictShadows order src elem) :
    StrictShadows order src (.array surface elem length count) := by
  intro desc plan s d built
  obtain ⟨elemDesc, n, step, convert, rfl, -, hconvert, hstep, rfl⟩ := built_array built
  have hstride : elemDesc.stride = step := by rw [Desc.stride, hstep]
  rw [hlength.toNat?, Option.getD_some, trail, trail, Dest.strays, hstride]
  rcases Nat.eq_zero_or_pos count with rfl | hpos
  · exact Trail.shadows_self rfl
  · exact Trail.shadows_iterate (fun j => h hpos elemDesc convert _ _ hconvert) 0 count

theorem shadows_fields {fields : List (Field Desc)} {slots : List (Slot Dest)}
    {plans : List (FieldPlan Plan)} (built : List.Forall₂ (SlotBuilt fields) slots plans)
    (h : ∀ slot ∈ slots, StrictShadows order src slot.type) (s d : Num) :
    Trail.Shadows (trailFields order .fail src plans s d) (trailFields order .ignore src plans s d)
      (Dest.slotsStrays order src fields slots s) := by
  induction built with
  | nil =>
      rw [trailFields, trailFields]
      exact Trail.shadows_self rfl
  | cons hbuilt _ ih =>
      obtain ⟨hfirst, hrest⟩ := List.forall_mem_cons.mp h
      obtain ⟨field, hfield, hsrc, -, hconvert⟩ := hbuilt
      rw [trailFields, trailFields, Dest.slotsStrays, hfield, hsrc]
      exact (hfirst _ _ _ _ hconvert).andThen (ih hrest)

theorem shadows_variant {surface : Surface} {cases : List (Case Dest)}
    {payloadOffset decodedAt : Num} (h : ∀ c ∈ cases, StrictShadows order src c.type) :
    StrictShadows order src (.variant surface cases payloadOffset decodedAt) := by
  intro desc plan s d built
  obtain ⟨ctors, maxAlign, arms, rfl, rfl, hstart, -, harms⟩ := built_variant built
  rw [trail, trail, Dest.strays, hstart]
  refine Trail.shadows_reading fun bytes hload => ?_
  have htag : src.loadWord order s 4 = .ok (Word.ofBytes order bytes) := by
    rw [Memory.loadWord, hload]
    rfl
  simp only [htag, Dest.caseStrays_eq]
  rcases trailArm_taken harms (Word.ofBytes order bytes) with
    ⟨htaken, htrail⟩ | ⟨c, ctor, convert, htaken, hmem, -, hconvert, htrail⟩
  · rw [htaken, htrail, htrail]
    exact shadows_unmatched surface.name _
  · -- both mark the destination with the same tag, then go on into the payload
    rw [htaken, htrail, htrail]
    exact (Trail.shadows_self rfl).andThen (h c hmem _ _ _ _ hconvert)

/-- **The strict trail of a pair shadows the lenient one.** -/
theorem shadows_of_settled {dest : Dest} (settled : dest.Settled) :
    StrictShadows order src dest := by
  -- one lemma for each kind of node
  induction settled with
  | prim p => exact shadows_prim p
  | array _ hlength _ _ ih => exact shadows_array hlength ih
  | record _ _ _ _ ih =>
      intro desc plan s d built
      obtain ⟨fields, plans, rfl, rfl, hplans⟩ := built_record built
      rw [trail, trail, Dest.strays]
      exact shadows_fields hplans ih s d
  | variant _ _ _ _ _ _ _ ih => exact shadows_variant ih

end Plan

/-! ## Building under either policy -/

/-- The layer with a policy of its own. -/
def Settings.withPolicy (layer : Layer) (policy : UnknownTagPolicy) : Layer :=
  { layer with unknownTag := some (.str policy.name) }

/-- The configuration with another policy. -/
def Config.withPolicy (config : Config) (policy : UnknownTagPolicy) : Config :=
  { config with unknownTag := policy }

theorem Settings.policy?_name (policy : UnknownTagPolicy) :
    policy? (some (.str policy.name)) = some policy := by
  cases policy <;> decide

/-- The policy of a layer decides neither whether it is valid nor the other settings. -/
theorem Settings.resolve_withPolicy (layer : Layer) (policy policy' : UnknownTagPolicy) :
    (withPolicy layer policy').resolve =
      (withPolicy layer policy).resolve.map (·.withPolicy policy') := by
  have herrors : errors (merge [withPolicy layer policy']).toLayer =
      errors (merge [withPolicy layer policy]).toLayer := by
    simp [errors, merge, override, toLayer, withPolicy, Json.stated, policy?_name]
  have hcoerce : (merge [withPolicy layer policy']).coerce =
      (merge [withPolicy layer policy]).coerce.withPolicy policy' := by
    simp only [coerce, Config.withPolicy, merge, List.foldl, override, withPolicy, Json.stated,
      Option.getD_some, policy?_name]
    cases policy' <;> rfl
  rw [resolve, resolve]
  simp only [herrors, hcoerce]
  cases errors (merge [withPolicy layer policy]).toLayer <;> rfl

namespace Converter

/-- The converter with another policy. -/
def withPolicy (c : Converter) (policy : UnknownTagPolicy) : Converter :=
  { c with config := c.config.withPolicy policy }

/-- **A pair is built alike under either policy.** -/
theorem build_withPolicy (dest : Dest) (desc : Desc) (options : Layer)
    (policy policy' : UnknownTagPolicy) :
    build dest desc (options.withPolicy policy') =
      (build dest desc (options.withPolicy policy)).map (·.withPolicy policy') := by
  have hresolve := Settings.resolve_withPolicy options policy policy'
  cases h : (options.withPolicy policy).resolve with
  | error cause =>
      rw [h] at hresolve
      rw [build, build, h, hresolve]
      rfl
  | ok config =>
      rw [h] at hresolve
      rw [build_of_resolve dest desc h, build_of_resolve dest desc hresolve, Traced.map]
      cases (Compiled.once dest desc []).result <;> rfl

/-- How the builds of a lenient and of a strict converter compare. -/
structure BuiltAlike (lenient strict : Traced Converter) : Prop where
  /-- Both report the same. -/
  events : lenient.events = strict.events
  /-- Both fail with the same failure. -/
  fails : ∀ f, lenient.result = .error f ↔ strict.result = .error f
  /-- Otherwise the converters differ in nothing but their policies. -/
  succeeds : ∀ c, strict.result = .ok c →
    c.config.unknownTag = .fail ∧ lenient.result = .ok (c.withPolicy .ignore)

theorem builtAlike (dest : Dest) (desc : Desc) (options : Layer) :
    BuiltAlike (build dest desc (options.withPolicy .ignore))
      (build dest desc (options.withPolicy .fail)) := by
  have hlenient := build_withPolicy dest desc options .fail .ignore
  have hstrict := build_withPolicy dest desc options .fail .fail
  refine ⟨by rw [hlenient, Traced.map], fun f => ?_, fun c hc => ⟨?_, ?_⟩⟩
  · rw [hlenient, Traced.map]
    cases (build dest desc (options.withPolicy .fail)).result <;> simp [Except.map]
  · -- the policy that a layer states is that of the converter
    rw [hstrict, Traced.map] at hc
    cases h : (build dest desc (options.withPolicy .fail)).result with
    | error e =>
        rw [h] at hc
        cases hc
    | ok c' =>
        rw [h] at hc
        cases hc
        rfl
  · rw [hlenient, Traced.map, hc]
    rfl

/-! ## Runs under either policy -/

/-- A strict run beside a lenient one over the same strays. -/
structure RunsBeside (strict lenient : Run) (strays : List Stray) : Prop where
  /-- The lenient run is never stopped. -/
  through : lenient.stop = none
  /-- It reports the strays, each once and in order, and nothing else. -/
  reports : lenient.events = strays.map Stray.event
  /-- The strict run reports nothing. -/
  silent : strict.events = []
  /-- The strict run goes through just if the lenient one reports nothing. -/
  succeeds : lenient.events = [] ↔ strict.stop = none
  /-- Then both leave the same bytes. -/
  same : strict.stop = none → strict.memory = lenient.memory
  /-- Else it is stopped by the tag that the lenient run reports first. -/
  first : ∀ f, strict.stop = some f → ∃ name tag rest,
    lenient.events = .unknownTag name tag :: rest ∧ f = Fault.unknownTag tag

theorem RunsBeside.stop_of_head {strict lenient : Run} {strays : List Stray}
    (h : RunsBeside strict lenient strays) {stray : Stray} (hhead : stray ∈ strays.head?) :
    strict.stop = some (Fault.unknownTag stray.tag) := by
  cases strays with
  | nil => cases hhead
  | cons x rest =>
      cases hhead
      have hevents := h.reports
      cases hstop : strict.stop with
      | none =>
          rw [h.succeeds.mpr hstop] at hevents
          cases hevents
      | some f =>
          obtain ⟨name, tag, rest', hfirst, rfl⟩ := h.first f hstop
          rw [hfirst, List.map_cons] at hevents
          cases hevents
          rfl

/-- Trails that can be replayed in full run beside each other as they shadow each other. -/
theorem runsBeside_of_shadows {strict lenient : Trail} {strays : List Stray}
    (h : Trail.Shadows strict lenient strays) (hsilent : strict.reports = [])
    (hstop : lenient.stop = none) {lo hi : Nat} {m : Memory} (hm : m.Addressable) (hhi : hi ≤ m.size)
    (hstrict : strict.All (Step.WritesWithin lo hi))
    (hlenient : lenient.All (Step.WritesWithin lo hi)) :
    RunsBeside (strict.on m) (lenient.on m) strays := by
  obtain ⟨hends, hevents⟩ := Trail.on_ends hm hlenient hhi
  obtain ⟨hends', hevents'⟩ := Trail.on_ends hm hstrict hhi
  have hreports := hevents.trans (h.reports hstop)
  have hsame : strays = [] → strict = lenient := h.same hstop
  constructor
  case through => exact hends.trans hstop
  case reports => exact hreports
  case silent => exact hevents'.trans hsilent
  case succeeds =>
    rw [hreports, hends', List.map_eq_nil_iff]
    cases strays with
    | nil => exact iff_of_true rfl (hsame rfl ▸ hstop)
    | cons x rest =>
        rw [h.first hstop x rfl]
        exact iff_of_false (List.cons_ne_nil _ _) (Option.some_ne_none _)
  case same =>
    intro hthrough
    cases strays with
    | nil => rw [hsame rfl]
    | cons x rest =>
        rw [hends', h.first hstop x rfl] at hthrough
        cases hthrough
  case first =>
    intro f hf
    rw [hends'] at hf
    cases strays with
    | nil =>
        rw [hsame rfl, hstop] at hf
        cases hf
    | cons x rest =>
        rw [h.first hstop x rfl] at hf
        cases hf
        exact ⟨x.name, x.tag, _, hreports, rfl⟩

/-- A strict application reports nothing, whatever its ranges are. -/
theorem events_strict (c : Converter) (src dst : Memory) (s t : Num) :
    (c.runAs .fail src dst s t).events = [] := by
  rw [runAs]
  cases c.checkRanges src.size dst.size s t with
  | error cause => rfl
  | ok _ =>
      simp only
      rw [Plan.run_eq]
      have hprefix := Trail.events_on (c.trail .fail src s t) dst
      rw [trail, Plan.reports_strict] at hprefix
      exact List.prefix_nil.mp hprefix

/-- A conversion makes a value of what a strict application leaves in fresh memory. -/
theorem convert_eq_runAs {c : Converter} (strict : c.compiled.strict = c.compiled.plan)
    (src : Memory) (s : Num) {n : Nat} (hn : c.dest.size.index? = some n) :
    c.convert src s = c.decoded (c.runAs .fail src (.zeros n) s 0) := by
  rw [convert, hn, strict, runAs, size_zeros]
  simp only
  cases c.checkRanges src.size n s 0 with
  | error cause => rfl
  | ok _ =>
      show _ = c.decoded (c.compiled.plan.run c.config.byteOrder .fail src s 0 (.zeros n))
      simp only
      split
      · rename_i hrun
        rw [hrun]
        rfl
      · rename_i hrun
        rw [hrun]
        rfl

section

variable {c : Converter} {desc : Desc} {src : Memory} {s t : Num} (made : c.dest.Made)
  (valid : desc.Valid) (built : c.BuiltFor c.dest desc) (hsrc : src.Addressable)
  (hin : InRange src.size s c.sourceSize)

include made valid built hsrc hin

/-- In range, the trails of a converter shadow each other, and the lenient one
is not stopped. -/
theorem trail_shadows (hsmall : c.dest.size.Small) :
    Trail.Shadows (c.trail .fail src s t) (c.trail .ignore src s t)
        (c.dest.strays c.config.byteOrder src desc s) ∧
      (c.trail .ignore src s t).stop = none := by
  rw [Memory.Addressable] at hsrc
  have settled := Dest.settled_of_made made hsmall
  obtain ⟨n, k, hn, hk, hfit⟩ := hin
  obtain ⟨measured, hreach⟩ :=
    (Dest.extentMeasures_of_counted settled.counted built.plan valid built.extent).2
      (small_of_is hk (by omega))
  obtain rfl := hreach.unique hk
  have hreads : Plan.Reads .ignore (c.trail .ignore src s t) n (n + c.dest.reach desc) :=
    Plan.reads_reach hsrc settled.counted (History.sized_always src) built.plan measured hn hfit
  refine ⟨Plan.shadows_of_settled settled _ _ s t built.plan, ?_⟩
  rcases hreads.ends with hstop | ⟨hpolicy, -⟩
  · exact hstop
  · cases hpolicy

/-- In range, both policies run beside each other. -/
theorem runs_beside {dst : Memory} (hdst : dst.Addressable)
    (hin' : InRange dst.size t c.dest.size) :
    RunsBeside (c.runAs .fail src dst s t) (c.runAs .ignore src dst s t)
      (c.dest.strays c.config.byteOrder src desc s) := by
  have hlimit : dst.size < exactLimit := hdst
  obtain ⟨o, w, ho, hw, hfits⟩ := hin'
  have hsmall := small_of_is hw (by omega)
  have settled := Dest.settled_of_made made hsmall
  obtain rfl := settled.size_is.1.unique hw
  have hchecks : c.checkRanges src.size dst.size s t = .ok () := by
    obtain ⟨n, k, hn, hk, hfit⟩ := hin
    have hs : checkRange .source src.size s c.sourceSize = .ok () :=
      (checkRange_ok hsrc (tracks_of_is hk)).mpr ⟨n, hn, hfit⟩
    have hd : checkRange .destination dst.size t c.dest.size = .ok () :=
      (checkRange_ok hdst (tracks_of_is hw)).mpr ⟨o, ho, hfits⟩
    exact checkRanges_of_ok hs hd
  obtain ⟨hshadows, hstop⟩ := trail_shadows (t := t) made valid built hsrc hin hsmall
  have hwithin : ∀ policy, (c.trail policy src s t).All (Step.WritesWithin o (o + c.dest.bytes)) :=
    fun policy => (Plan.writes_footprint settled built.plan ho (by omega)).within
  rw [runAs_eq hchecks, runAs_eq hchecks]
  exact runsBeside_of_shadows hshadows (Plan.reports_strict _ _ _ _ _) hstop hdst hfits
    (hwithin .fail) (hwithin .ignore)

/-- In range, what a conversion makes of the strict run on fresh memory. -/
theorem convert_beside (hsmall : c.dest.size.Small) :
    ∃ n, c.dest.size.Is n ∧
      RunsBeside (c.runAs .fail src (.zeros n) s 0) (c.runAs .ignore src (.zeros n) s 0)
        (c.dest.strays c.config.byteOrder src desc s) ∧
      c.convert src s = c.decoded (c.runAs .fail src (.zeros n) s 0) := by
  obtain ⟨hsize, hlimit⟩ := (Dest.settled_of_made made hsmall).size_is
  have hout : (Memory.zeros c.dest.bytes).Addressable := (size_zeros _).trans_lt hlimit
  have hfresh : InRange (Memory.zeros c.dest.bytes).size 0 c.dest.size := by
    refine ⟨0, _, is_ofNat (Nat.zero_le _), hsize, ?_⟩
    rw [size_zeros, Nat.zero_add]
  exact ⟨_, hsize, runs_beside made valid built hsrc hin hout hfresh,
    convert_eq_runAs built.strict src s (hsize.index? hlimit)⟩

end

/-! ## A lenient converter and a strict one -/

/-- What a lenient and a strict converter of one pair make of one source value. -/
structure Simulates (lenient strict : Converter) (src : Memory) (s : Num)
    (strays : List Stray) : Prop where
  /-- In range, their applications run beside each other, whatever the destination holds. -/
  applies : InRange src.size s lenient.sourceSize → ∀ dst : Memory, dst.Addressable →
    ∀ t, InRange dst.size t lenient.dest.size →
      RunsBeside (strict.apply src dst s t) (lenient.apply src dst s t) strays
  /-- Both convert alike. -/
  converts : lenient.convert src s = strict.convert src s
  /-- A conversion makes a value of what the strict application leaves in fresh
  memory, and that one never reports. -/
  silent : ∀ n, lenient.dest.size.index? = some n →
    lenient.convert src s = lenient.decoded (strict.apply src (.zeros n) s 0) ∧
      (strict.apply src (.zeros n) s 0).events = []
  /-- In range it fails with the first stray. -/
  fails : InRange src.size s lenient.sourceSize → lenient.dest.size.Small →
    ∀ stray ∈ strays.head?, lenient.convert src s = .error (Fault.unknownTag stray.tag)
  /-- Without strays it decodes what the lenient application leaves, too. -/
  yields : InRange src.size s lenient.sourceSize → lenient.dest.size.Small → strays = [] →
    ∃ n, lenient.dest.size.Is n ∧ lenient.convert src s =
      lenient.dest.decode (lenient.apply src (.zeros n) s 0).memory lenient.config.byteOrder 0

theorem simulates_of_built {c : Converter} {desc : Desc} (made : c.dest.Made) (valid : desc.Valid)
    (built : c.BuiltFor c.dest desc) (hpolicy : c.config.unknownTag = .fail) {src : Memory}
    (hsrc : src.Addressable) (s : Num) :
    (c.withPolicy .ignore).Simulates c src s (c.dest.strays c.config.byteOrder src desc s) := by
  have happly : ∀ dst s t, c.apply src dst s t = c.runAs .fail src dst s t := fun dst s t => by
    rw [apply, hpolicy]
  constructor
  case applies =>
    intro hin dst hdst t hin'
    rw [happly]
    exact runs_beside made valid built hsrc hin hdst hin'
  case converts => rfl
  case silent =>
    intro n hn
    rw [happly]
    exact ⟨convert_eq_runAs built.strict src s hn, events_strict c src _ s 0⟩
  case fails =>
    intro hin hsmall stray hstray
    obtain ⟨n, -, hbeside, hconvert⟩ := convert_beside made valid built hsrc hin hsmall
    refine hconvert.trans ?_
    rw [decoded, hbeside.stop_of_head hstray]
  case yields =>
    intro hin hsmall hnone
    obtain ⟨n, hn, hbeside, hconvert⟩ := convert_beside made valid built hsrc hin hsmall
    have hstop : (c.runAs .fail src (.zeros n) s 0).stop = none := by
      rw [← hbeside.succeeds, hbeside.reports, hnone]
      rfl
    refine ⟨n, hn, hconvert.trans ?_⟩
    rw [decoded, hstop, hbeside.same hstop]
    rfl

/-- **A lenient converter and a strict one simulate each other.** -/
theorem lenient_simulates_strict {dest : Dest} (made : dest.Made) {document : Text} {desc : Desc}
    (hdesc : Desc.decode document = .ok desc) (options : Layer) :
    (BuiltAlike (build dest desc (options.withPolicy .ignore))
        (build dest desc (options.withPolicy .fail)) ∧
      ∀ policy path, Plan.buildBoth policy dest desc path =
        (Plan.build dest desc path).map fun plan => (plan, plan)) ∧
    ∀ lenient strict, (build dest desc (options.withPolicy .ignore)).result = .ok lenient →
      (build dest desc (options.withPolicy .fail)).result = .ok strict →
      ∀ src : Memory, src.Addressable → ∀ s, lenient.Simulates strict src s
        (dest.strays lenient.config.byteOrder src desc s) := by
  have valid := Desc.valid_of_decode hdesc
  have halike := builtAlike dest desc options
  refine ⟨⟨halike, fun policy path => Plan.buildBoth_eq policy dest desc path⟩, ?_⟩
  intro lenient strict hlenient hstrict src hsrc s
  obtain ⟨hpolicy, hignore⟩ := halike.succeeds strict hstrict
  obtain rfl := Except.ok.inj (hlenient.symm.trans hignore)
  have built := builtFor_of_build hstrict
  cases built.same
  exact simulates_of_built made valid built hpolicy hsrc s

/-- The policies part over a reading of an unknown tag. -/
theorem lenient_simulates_strict_sample :
    ∃ lenient strict, (build Sample.dest Sample.desc Sample.options).result = .ok lenient ∧
      (build Sample.dest Sample.desc (Sample.options.withPolicy .fail)).result = .ok strict ∧
      lenient.Simulates strict unknownReading 0 [⟨"|idle: unit, level: int32|", 9⟩] := by
  have hstrict : (build Sample.dest Sample.desc
      (Sample.options.withPolicy .fail)).result.toOption.isSome = true := by decide +kernel
  have hstrays : Sample.dest.strays Sample.converter.config.byteOrder unknownReading Sample.desc 0 =
      [⟨"|idle: unit, level: int32|", 9⟩] := by decide +kernel
  have haddressable : unknownReading.Addressable := by
    rw [Memory.Addressable]
    decide
  obtain ⟨-, hsimulates⟩ := lenient_simulates_strict Sample.made Sample.decoded Sample.options
  refine ⟨Sample.converter, _, Sample.built, eq_ok_get hstrict, ?_⟩
  rw [← hstrays]
  exact hsimulates _ _ Sample.built (eq_ok_get hstrict) _ haddressable 0

end Converter

end Relayout

import Relayout.Proofs.Chain
import Relayout.Proofs.Native
import Relayout.Proofs.Lenient

/-!
# Surveys

A survey walks a destination type and a descriptor side by side and lists, in
order, what is passed over and what is at fault. Unlike a build it does not end
at a fault. A build reports what its survey lists up to the first fault, and it
gives up by that fault, located at its node (`follows_build`).
-/

namespace Relayout

/-! ## What is listed -/

/-- The cause names the node that it is raised at, if it names any. -/
def Origin.Names (path : List Text) : Origin → Prop
  | node c => c.path? = some path
  | layout _ => True

/-- A cause that names its node is raised there as it stands. -/
theorem Origin.raisedAt_of_names {o : Origin} {path : List Text} (h : o.Names path) :
    o.raisedAt path = o.cause := by
  cases o with
  | layout c => rfl
  | node c => cases c <;> cases h <;> rfl

inductive Mark where
  /-- Something is passed over. -/
  | report (event : Event)
  /-- The node at `path` is at fault. -/
  | fault (path : List Text) (origin : Origin)
  deriving DecidableEq

/-- What a check that belongs to the node at `path` lists. -/
def Mark.found {α : Type} (origin : Cause → Origin) (path : List Text) :
    Except Cause α → List Mark
  | .ok _ => []
  | .error c => [.fault path (origin c)]

/-- A list has one first fault, and the reports before it are fixed, too. -/
theorem Mark.first_inj {before before' : List Event} {path path' : List Text} {o o' : Origin}
    {after after' : List Mark}
    (h : before.map .report ++ .fault path o :: after =
      before'.map .report ++ .fault path' o' :: after') :
    before = before' ∧ path = path' ∧ o = o' := by
  induction before generalizing before' with
  | nil =>
      cases before' with
      | nil =>
          cases h
          exact ⟨rfl, rfl, rfl⟩
      | cons e rest => cases h
  | cons e rest ih =>
      cases before' with
      | nil => cases h
      | cons e' rest' =>
          obtain ⟨he, hrest⟩ := List.cons.inj h
          cases he
          obtain ⟨rfl, hsame⟩ := ih hrest
          exact ⟨rfl, hsame⟩

namespace Dest

open Mark

mutual

/-- All there is to say of a destination type at `path` and a descriptor. -/
def survey : Dest → Desc → (path : List Text) → List Mark
  | .prim surface source widensFrom codec, desc, path =>
    found .node path (Plan.buildPrim surface source widensFrom codec desc path)
  | .array surface elem length _, desc, path =>
    match desc with
    | .array elemDesc len =>
      found .node path (Plan.checkLength length len path) ++
        (survey elem elemDesc (path ++ [Text.ofString "[]"]) ++ found .layout path elemDesc.size)
    | other => [.fault path (.node (.kindMismatch surface.name other.display path))]
  | .record surface slots, desc, path =>
    match desc with
    | .struct fields =>
      surveySlots surface.size fields path slots ++
        (fields.filter fun f => ∀ s ∈ slots, s.name ≠ f.name).map
          fun f => .report (.fieldIgnored path f.name)
    | other => [.fault path (.node (.kindMismatch surface.name other.display path))]
  | .variant surface cases payloadOffset _, desc, path =>
    match desc with
    | .variant ctors => surveyCases surface.size payloadOffset ctors path cases
    | other => [.fault path (.node (.kindMismatch surface.name other.display path))]

/-- All there is to say of the slots of a record of the given size. -/
def surveySlots (size : Num) (fields : List (Field Desc)) (path : List Text) :
    List (Slot Dest) → List Mark
  | [] => []
  | s :: rest =>
    (if s.offset.lt 0 || size.lt (s.offset + s.type.size) then
      [.fault path (.node (.invalidLayout s.name size path))]
    else []) ++
    (match fields.find? (·.name = s.name) with
    | none => [.fault path (.node (.missingField s.name path))]
    | some f => survey s.type f.type (path ++ [s.name])) ++
    surveySlots size fields path rest

/-- All there is to say of the cases of a variant of the given size. -/
def surveyCases (size payloadOffset : Num) (ctors : List (Ctor Desc)) (path : List Text) :
    List (Case Dest) → List Mark
  | [] => []
  | c :: rest =>
    (match ctors.find? (·.name = c.name) with
    | none => [.report (.ctorSkipped path c.name)]
    | some ctor =>
      (if size.lt (payloadOffset + c.type.size) then
        [.fault path (.node (.invalidLayout c.name size path))]
      else []) ++
      (found .layout path ctor.type.align ++ survey c.type ctor.type (path ++ [c.name]))) ++
    surveyCases size payloadOffset ctors path rest

end

end Dest

/-- All there is to say of a pair: the survey of its nodes, and whether the source can be
measured. -/
def Compiled.survey (dest : Dest) (desc : Desc) : List Mark :=
  dest.survey desc [] ++ Mark.found .layout [] (dest.sourceExtent desc)

/-! ## Computations that follow a survey -/

namespace Traced

variable {α β : Type} {path : List Text}

/-- A computation that begins at `path` reports what is listed up to the first fault, and gives
up by that fault, located at its node. -/
inductive Follows (path : List Text) : Traced α → List Mark → Prop
  | through {events : List Event} {a : α} : Follows path ⟨events, .ok a⟩ (events.map .report)
  | givesUp {events : List Event} {segments : List Text} {o : Origin} {after : List Mark}
      (names : o.Names (path ++ segments)) :
      Follows path ⟨events, .error (Failure.located o path segments)⟩
        (events.map .report ++ .fault (path ++ segments) o :: after)

theorem follows_pure (a : α) : Follows path (pure a : Traced α) [] := by
  show Follows path ⟨[], .ok a⟩ (List.map Mark.report [])
  exact .through

theorem follows_emitAll (events : List Event) :
    Follows path (emitAll events) (events.map .report) :=
  .through

theorem follows_fail {c : Cause} (h : c.path? = some path) (after : List Mark) :
    Follows path (fail c.failure : Traced α) (.fault path (.node c) :: after) := by
  have hnames : Origin.Names (path ++ []) (.node c) := by rwa [List.append_nil]
  have hfollows : Follows path (⟨[], .error (Failure.located (.node c) path [])⟩ : Traced α)
      (List.map Mark.report [] ++ .fault (path ++ []) (.node c) :: after) := .givesUp hnames
  rw [Failure.located, Origin.raisedAt_of_names (List.append_nil path ▸ hnames)] at hfollows
  simpa [Origin.cause, fail] using hfollows

/-- A computation that comes to a value has reported all that is listed. -/
theorem Follows.all_of_ok {x : Traced α} {marks : List Mark} (h : Follows path x marks) {a : α}
    (hx : x.result = .ok a) : marks = x.events.map .report := by
  cases h with
  | through => rfl
  | givesUp names => cases hx

/-- A computation that fails has reported what is listed before the fault. -/
theorem Follows.first_of_error {x : Traced α} {marks : List Mark} (h : Follows path x marks)
    {f : Failure} (hx : x.result = .error f) :
    ∃ segments o after, f = Failure.located o path segments ∧ o.Names (path ++ segments) ∧
      marks = x.events.map .report ++ .fault (path ++ segments) o :: after := by
  cases h with
  | through => cases hx
  | givesUp names =>
      cases hx
      exact ⟨_, _, _, rfl, names, rfl⟩

/-- What a node checks for itself. -/
theorem follows_check {x : Except Cause α} (h : ∀ c, x = .error c → c.path? = some path) :
    Follows path (ofCause x) (Mark.found .node path x) := by
  cases x with
  | ok a => exact follows_pure a
  | error c => exact follows_fail (h c rfl) []

/-- What a node measures of its source. -/
theorem follows_measure (x : Except Cause α) :
    Follows path (ofCause x) (Mark.found .layout path x) := by
  cases x with
  | ok a => exact follows_pure a
  | error c =>
      have hfollows : Follows path (⟨[], .error (Failure.located (.layout c) path [])⟩ : Traced α)
          (List.map Mark.report [] ++ [.fault (path ++ []) (.layout c)]) := .givesUp trivial
      rwa [List.append_nil] at hfollows

theorem Follows.bind {x : Traced α} {f : α → Traced β} {marks marks' : List Mark}
    (hx : Follows path x marks) (hf : ∀ a, x.result = .ok a → Follows path (f a) marks') :
    Follows path (x >>= f) (marks ++ marks') := by
  cases hx with
  | givesUp names =>
      rw [List.append_assoc, List.cons_append]
      exact .givesUp names
  | @through events a =>
      have hnext := hf a rfl
      rw [bind_of_ok rfl]
      generalize f a = y at hnext
      cases hnext with
      | through =>
          rw [← List.map_append]
          exact .through
      | givesUp names =>
          rw [← List.append_assoc, ← List.map_append]
          exact .givesUp names

/-- What a part lists, its node lists. -/
theorem Follows.inPart {x : List Text → Traced α} {segment : Text} {marks : List Mark}
    (h : Follows (path ++ [segment]) (x (path ++ [segment])) marks) :
    Follows path (Plan.inPart path segment x) marks := by
  rw [Plan.inPart]
  generalize x (path ++ [segment]) = y at h
  cases h with
  | through => exact .through
  | @givesUp events segments o after names =>
      rw [List.append_assoc, List.singleton_append] at names ⊢
      show Follows path ⟨events, .error (Failure.located o path (segment :: segments))⟩ _
      exact .givesUp names

end Traced

/-! ## Builds follow surveys -/

namespace Plan

open Traced

theorem path?_of_buildPrim {surface : Surface} {source : Text} {widensFrom : List Text}
    {codec : Prim} {desc : Desc} {path : List Text} {c : Cause}
    (h : buildPrim surface source widensFrom codec desc path = .error c) :
    c.path? = some path := by
  rcases buildPrim_error h with ⟨name, -, rfl⟩ | rfl
  · rfl
  · rfl

theorem path?_of_checkLength {length : Num} {len : Desc} {path : List Text} {c : Cause}
    (h : checkLength length len path = .error c) : c.path? = some path := by
  rcases checkLength_error h with ⟨n, -, rfl⟩ | rfl
  · rfl
  · rfl

/-- The fields that are ignored are those whose names no slot has. -/
theorem ignoredFields_eq (slots : List (Slot Dest)) (fields : List (Field Desc))
    (path : List Text) :
    (ignoredFields slots fields path).map Mark.report =
      (fields.filter fun f => ∀ s ∈ slots, s.name ≠ f.name).map
        fun f => .report (.fieldIgnored path f.name) := by
  have hsame : ∀ f : Field Desc,
      (!slots.any (·.name = f.name)) = decide (∀ s ∈ slots, s.name ≠ f.name) := by
    intro f
    rw [Bool.eq_iff_iff]
    simp
  rw [ignoredFields, List.filter_congr fun f _ => hsame f, List.map_map]
  rfl

mutual

/-- **A build follows its survey.** -/
theorem follows_build : ∀ (dest : Dest) (desc : Desc) (path : List Text),
    Follows path (build dest desc path) (dest.survey desc path)
  | .prim surface source widensFrom codec, desc, path => by
      rw [build, Dest.survey]
      exact follows_check fun c => path?_of_buildPrim
  | .array surface elem length count, desc, path => by
      cases desc with
      | array elemDesc len =>
          rw [build, Dest.survey]
          refine (follows_check fun c => path?_of_checkLength).bind fun _ _ => ?_
          refine (follows_build elem elemDesc _).inPart.bind fun _ _ => ?_
          rw [← List.append_nil (Mark.found _ _ _)]
          exact (follows_measure _).bind fun _ _ => follows_pure _
      | _ =>
          rw [build, Dest.survey]
          · exact follows_fail rfl []
          all_goals rintro _ _ ⟨⟩
  | .record surface slots, desc, path => by
      cases desc with
      | struct fields =>
          rw [build, Dest.survey]
          refine (follows_buildSlots surface.size fields path slots).bind fun _ _ => ?_
          rw [← ignoredFields_eq, ← List.append_nil (List.map _ _)]
          exact (follows_emitAll _).bind fun _ _ => follows_pure _
      | _ =>
          rw [build, Dest.survey]
          · exact follows_fail rfl []
          all_goals rintro _ ⟨⟩
  | .variant surface cases payloadOffset decodedAt, desc, path => by
      cases desc with
      | variant ctors =>
          rw [build, Dest.survey, ← List.append_nil (Dest.surveyCases _ _ _ _ _)]
          exact (follows_buildCases surface.size payloadOffset ctors path cases 1 []).bind
            fun _ _ => follows_pure _
      | _ =>
          rw [build, Dest.survey]
          · exact follows_fail rfl []
          all_goals rintro _ ⟨⟩

theorem follows_buildSlots (size : Num) (fields : List (Field Desc)) (path : List Text) :
    ∀ slots : List (Slot Dest),
      Follows path (buildSlots size fields path slots) (Dest.surveySlots size fields path slots)
  | [] => follows_pure []
  | s :: rest => by
      rw [buildSlots, Dest.surveySlots, List.append_assoc]
      split
      · exact follows_fail rfl _
      · rw [List.nil_append]
        cases fields.find? (·.name = s.name) with
        | none => exact follows_fail rfl _
        | some f =>
            refine (follows_build s.type f.type _).inPart.bind fun _ _ => ?_
            rw [← List.append_nil (Dest.surveySlots _ _ _ _)]
            exact (follows_buildSlots size fields path rest).bind fun _ _ => follows_pure _

theorem follows_buildCases (size payloadOffset : Num) (ctors : List (Ctor Desc))
    (path : List Text) : ∀ (cases : List (Case Dest)) (widest : Num) (arms : List (Arm Plan)),
      Follows path (buildCases size payloadOffset ctors path cases widest arms)
        (Dest.surveyCases size payloadOffset ctors path cases)
  | [], _, _ => follows_pure _
  | c :: rest, _, _ => by
      rw [buildCases, Dest.surveyCases]
      cases ctors.find? (·.name = c.name) with
      | none =>
          exact (follows_emitAll [_]).bind fun _ _ =>
            follows_buildCases size payloadOffset ctors path rest _ _
      | some ctor =>
          simp only [List.append_assoc]
          split
          · exact follows_fail rfl _
          · rw [List.nil_append]
            refine (follows_measure _).bind fun _ _ => ?_
            exact (follows_build c.type ctor.type _).inPart.bind fun _ _ =>
              follows_buildCases size payloadOffset ctors path rest _ _

end

end Plan

/-! ## Where faults are -/

namespace Dest

/-- The names of the parts on the way from a type to one of its nodes. An array calls all of its
elements alike. -/
inductive Leads : Dest → List Text → Dest → Prop
  | here {d : Dest} : Leads d [] d
  | elem {surface : Surface} {elem node : Dest} {length : Num} {count : Nat} {path : List Text}
      (h : Leads elem path node) :
      Leads (.array surface elem length count) (Text.ofString "[]" :: path) node
  | slot {surface : Surface} {slots : List (Slot Dest)} {s : Slot Dest} {path : List Text}
      {node : Dest} (hs : s ∈ slots) (h : Leads s.type path node) :
      Leads (.record surface slots) (s.name :: path) node
  | case {surface : Surface} {cases : List (Case Dest)} {payloadOffset decodedAt : Num}
      {c : Case Dest} {path : List Text} {node : Dest} (hc : c ∈ cases)
      (h : Leads c.type path node) :
      Leads (.variant surface cases payloadOffset decodedAt) (c.name :: path) node

/-- The type at `path` has a node at `target`. -/
def HasNode (d : Dest) (path target : List Text) : Prop :=
  ∃ segments node, target = path ++ segments ∧ d.Leads segments node

theorem hasNode_self {d : Dest} {path target : List Text} (h : target = path) :
    d.HasNode path target :=
  ⟨[], d, h.trans (List.append_nil path).symm, .here⟩

/-- The nodes of a part are nodes of the whole. -/
theorem HasNode.outside {part whole : Dest} {path target : List Text} {segment : Text}
    (h : part.HasNode (path ++ [segment]) target)
    (hpart : ∀ segments node, part.Leads segments node → whole.Leads (segment :: segments) node) :
    whole.HasNode path target := by
  obtain ⟨segments, node, rfl, hleads⟩ := h
  exact ⟨segment :: segments, node, by rw [List.append_assoc, List.singleton_append],
    hpart segments node hleads⟩

theorem path_of_found {α : Type} {origin : Cause → Origin} {path target : List Text} {o : Origin}
    {x : Except Cause α} (h : .fault target o ∈ Mark.found origin path x) : target = path := by
  cases x with
  | ok a => cases h
  | error c =>
      cases List.mem_singleton.mp h
      rfl

theorem path_of_single {path target : List Text} {o o' : Origin}
    (h : Mark.fault target o ∈ [Mark.fault path o']) : target = path := by
  cases List.mem_singleton.mp h
  rfl

mutual

/-- **Every fault that is listed is at a node of the type.** -/
theorem hasNode_of_fault : ∀ (dest : Dest) {desc : Desc} {path target : List Text} {o : Origin},
    .fault target o ∈ dest.survey desc path → dest.HasNode path target
  | .prim surface source widensFrom codec, desc, path, target, o, h => by
      rw [survey] at h
      exact hasNode_self (path_of_found h)
  | .array surface elem length count, desc, path, target, o, h => by
      cases desc with
      | array elemDesc len =>
          rw [survey, List.mem_append, List.mem_append] at h
          rcases h with h | h | h
          · exact hasNode_self (path_of_found h)
          · exact (hasNode_of_fault elem h).outside fun _ _ => .elem
          · exact hasNode_self (path_of_found h)
      | _ => exact hasNode_self (path_of_single h)
  | .record surface slots, desc, path, target, o, h => by
      cases desc with
      | struct fields =>
          rw [survey, List.mem_append] at h
          rcases h with h | h
          · rcases hasNode_of_slotsFault slots h with rfl | ⟨s, hs, hpart⟩
            · exact hasNode_self rfl
            · exact hpart.outside fun _ _ => .slot hs
          · obtain ⟨f, -, hf⟩ := List.mem_map.mp h
            cases hf
      | _ => exact hasNode_self (path_of_single h)
  | .variant surface cases payloadOffset decodedAt, desc, path, target, o, h => by
      cases desc with
      | variant ctors =>
          rw [survey] at h
          rcases hasNode_of_casesFault cases h with rfl | ⟨c, hc, hpart⟩
          · exact hasNode_self rfl
          · exact hpart.outside fun _ _ => .case hc
      | _ => exact hasNode_self (path_of_single h)

theorem hasNode_of_slotsFault : ∀ (slots : List (Slot Dest)) {size : Num}
    {fields : List (Field Desc)} {path target : List Text} {o : Origin},
    .fault target o ∈ surveySlots size fields path slots →
      target = path ∨ ∃ s ∈ slots, s.type.HasNode (path ++ [s.name]) target
  | [], _, _, _, _, _, h => by
      rw [surveySlots] at h
      cases h
  | s :: rest, size, fields, path, target, o, h => by
      rw [surveySlots, List.mem_append, List.mem_append] at h
      rcases h with (h | h) | h
      · split at h
        · exact Or.inl (path_of_single h)
        · cases h
      · split at h
        · exact Or.inl (path_of_single h)
        · exact Or.inr ⟨s, List.mem_cons_self, hasNode_of_fault s.type h⟩
      · rcases hasNode_of_slotsFault rest h with rfl | ⟨s', hs', hpart⟩
        · exact Or.inl rfl
        · exact Or.inr ⟨s', List.mem_cons_of_mem _ hs', hpart⟩

theorem hasNode_of_casesFault : ∀ (cases : List (Case Dest)) {size payloadOffset : Num}
    {ctors : List (Ctor Desc)} {path target : List Text} {o : Origin},
    .fault target o ∈ surveyCases size payloadOffset ctors path cases →
      target = path ∨ ∃ c ∈ cases, c.type.HasNode (path ++ [c.name]) target
  | [], _, _, _, _, _, _, h => by
      rw [surveyCases] at h
      cases h
  | c :: rest, size, payloadOffset, ctors, path, target, o, h => by
      rw [surveyCases, List.mem_append] at h
      rcases h with h | h
      · split at h
        · cases List.mem_singleton.mp h
        · rw [List.mem_append, List.mem_append] at h
          rcases h with h | h | h
          · split at h
            · exact Or.inl (path_of_single h)
            · cases h
          · exact Or.inl (path_of_found h)
          · exact Or.inr ⟨c, List.mem_cons_self, hasNode_of_fault c.type h⟩
      · rcases hasNode_of_casesFault rest h with rfl | ⟨c', hc', hpart⟩
        · exact Or.inl rfl
        · exact Or.inr ⟨c', List.mem_cons_of_mem _ hc', hpart⟩

end

end Dest

/-! ## Failing builds -/

namespace Compiled

variable {dest : Dest} {desc : Desc}

/-- The fault by which a pair gives up is the first that is listed. If all primitives name known
source primitives, then matching comes to it, and measuring the source adds none. -/
theorem first_of_error {f : Failure} (h : (once dest desc []).result = .error f) :
    ∃ path o, f = Failure.located o [] path ∧ o.Names path ∧
      (∃ after, survey dest desc =
        (once dest desc []).events.map .report ++ .fault path o :: after) ∧
      (dest.Sourced → ∃ after, dest.survey desc [] =
        (once dest desc []).events.map .report ++ .fault path o :: after) := by
  have hfollows := Plan.follows_build dest desc []
  cases hplan : (Plan.build dest desc []).result with
  | error e =>
      obtain ⟨path, o, after, hlocated, hnames, hsurvey⟩ := hfollows.first_of_error hplan
      rw [once, Traced.bind_of_error hplan] at h ⊢
      cases h
      refine ⟨path, o, hlocated, hnames,
        ⟨after ++ Mark.found .layout [] (dest.sourceExtent desc), ?_⟩,
        fun _ => ⟨after, hsurvey⟩⟩
      rw [survey, hsurvey, List.append_assoc, List.cons_append]
      rfl
  | ok plan =>
      have hall := hfollows.all_of_ok hplan
      cases hextent : dest.sourceExtent desc with
      | error c =>
          rw [once, Traced.bind_of_ok hplan, hextent] at h ⊢
          cases h
          refine ⟨[], .layout c, rfl, trivial, ⟨[], ?_⟩, fun sourced => ?_⟩
          · rw [survey, hall, hextent]
            exact congrArg (List.map Mark.report · ++ _) (List.append_nil _).symm
          · -- what was matched can be measured
            obtain ⟨x, hx⟩ := sourced.hasExtent ⟨[], hplan⟩
            rw [hextent] at hx
            cases hx
      | ok x =>
          rw [once, Traced.bind_of_ok hplan, hextent] at h
          cases h

/-- A pair that can be built has no fault, and all that is listed is reported. -/
theorem all_of_ok {compiled : Compiled} (h : (once dest desc []).result = .ok compiled) :
    dest.survey desc [] = (once dest desc []).events.map .report := by
  obtain ⟨plan, hplan, h⟩ := Traced.result_bind_eq_ok.mp h
  obtain ⟨extent, hextent, -⟩ := Traced.result_bind_eq_ok.mp h
  rw [(Plan.follows_build dest desc []).all_of_ok hplan, once, Traced.bind_of_ok hplan,
    Traced.bind_of_ok hextent, Plan.result_ofCause.mp hextent]
  exact congrArg (List.map Mark.report) (List.append_nil _).symm

/-- Every fault of a pair is at a node of the destination. -/
theorem leads_of_fault {path : List Text} {o : Origin} (h : .fault path o ∈ survey dest desc) :
    ∃ node, dest.Leads path node := by
  rcases List.mem_append.mp h with h | h
  · obtain ⟨segments, node, rfl, hleads⟩ := Dest.hasNode_of_fault dest h
    exact ⟨node, hleads⟩
  · exact ⟨dest, Dest.path_of_found h ▸ .here⟩

end Compiled

namespace Converter

variable {dest : Dest} {desc : Desc} {options : Layer} {config : Config}

/-- A build that fails at a node: what is told of it. -/
structure FailsAt (dest : Dest) (desc : Desc) (options : Layer) (f : Failure) (path : List Text)
    (o : Origin) : Prop where
  /-- The path leads from the destination to one of its nodes. -/
  node : ∃ node, dest.Leads path node
  /-- The fault is the first that is listed of the pair. What is listed before it is reported,
  and then the failure is, with its reason and its message. -/
  first : ∃ before after, Compiled.survey dest desc = before.map .report ++ .fault path o :: after ∧
    (build dest desc options).events =
      before ++ [.buildFailed dest.name desc.display f.reason f.message]
  /-- Where the primitives name known source primitives, the fault is met in matching. -/
  matching : dest.Sourced → .fault path o ∈ dest.survey desc []
  /-- The failure tells of the one that the fault raised. -/
  relays : f.Relays o.cause.failure path
  /-- A fault of the node itself has the path in its only diagnostic. -/
  diagnosed : ∀ cause, o = .node cause → f.diagnostics.map (·.path) = [some path]
  /-- It comes back as an outcome, too. -/
  outcome : tryBuild dest desc options =
    ((build dest desc options).events, .ok (.fail f ⟨none⟩))

/-- **Every build that fails does so at a node, by the first fault that is listed.** -/
theorem failsAt_of_error (hoptions : options.resolve = .ok config) {f : Failure}
    (h : (build dest desc options).result = .error f) :
    ∃ path o, FailsAt dest desc options f path o := by
  have hcompiled := (error_iff_compiled hoptions).mp h
  obtain ⟨path, o, hlocated, hnames, ⟨after, hsurvey⟩, hmatching⟩ :=
    Compiled.first_of_error hcompiled
  have hrelays : f.Relays o.cause.failure path := by
    rw [hlocated, ← Origin.raisedAt_of_names hnames]
    exact Failure.relays_located o path
  refine ⟨path, o, ?_, ⟨_, after, hsurvey, ?_⟩, fun sourced => ?_, hrelays, ?_, ?_⟩
  · exact Compiled.leads_of_fault (hsurvey ▸ List.mem_append_right _ List.mem_cons_self)
  · rw [build_of_resolve dest desc hoptions, hcompiled]
    rfl
  · obtain ⟨after, hsurvey⟩ := hmatching sourced
    exact hsurvey ▸ List.mem_append_right _ List.mem_cons_self
  · rintro cause rfl
    rw [hrelays.diagnostics]
    exact congrArg (fun p => [p]) hnames
  · rw [tryBuild, h]
    rfl

/-- The level of the reading is given as a double, which no whole number is made from. -/
def misfit : Desc :=
  .struct [⟨"reading", 4, .variant [⟨"level", 3, .prim "double"⟩]⟩, ⟨"flag", 0, .prim "byte"⟩,
    ⟨"spare", 1, .prim "bool"⟩]

/-- The options of the sample are valid. -/
theorem options_resolve : ∃ config, Sample.options.resolve = .ok config :=
  ⟨_, eq_ok_get (by decide +kernel)⟩

theorem misfit_fails : ∃ f, (build Sample.dest misfit Sample.options).result = .error f := by
  have hfails : (error? (build Sample.dest misfit Sample.options).result).isSome = true := by
    decide +kernel
  obtain ⟨f, hf⟩ := Option.isSome_iff_exists.mp hfails
  exact ⟨f, error?_eq_some.mp hf⟩

theorem survey_misfit : Compiled.survey Sample.dest misfit =
    [Event.ctorSkipped ["reading"] "idle"].map .report ++
      .fault ["reading", "level"]
        (.node (.noConversionPath "double" "int32" ["reading", "level"])) ::
      [.report (.fieldIgnored [] "spare")] := by
  decide +kernel

/-- The failure at the level of the reading passes two nodes on its way out. -/
theorem failsAt_of_error_sample : ∃ f, (build Sample.dest misfit Sample.options).result = .error f ∧
    FailsAt Sample.dest misfit Sample.options f ["reading", "level"]
      (.node (.noConversionPath "double" "int32" ["reading", "level"])) := by
  obtain ⟨config, hoptions⟩ := options_resolve
  obtain ⟨f, hf⟩ := misfit_fails
  obtain ⟨path, o, h⟩ := failsAt_of_error hoptions hf
  obtain ⟨before, after, hfirst, -⟩ := h.first
  obtain ⟨-, rfl, rfl⟩ := Mark.first_inj (survey_misfit.symm.trans hfirst)
  exact ⟨f, hf, h⟩

/-! ## Reports -/

/-- What a sink without a limit comes to hold of a computation. -/
def collected {α : Type} (x : Traced α) : List Event :=
  ((Sink.empty (.infinite false)).emitAll x.events).events

theorem infinite_lt (x : Num) : (Num.infinite false).lt x = false := by
  cases x <;> rfl

theorem events_emitAll (events : List Event) : ∀ held : List Event,
    (Sink.emitAll ⟨.infinite false, held⟩ events).events = held ++ events := by
  induction events with
  | nil => exact fun held => (List.append_nil held).symm
  | cons e rest ih =>
      intro held
      have hemit : Sink.emit ⟨.infinite false, held⟩ e = ⟨.infinite false, held ++ [e]⟩ := by
        simp only [Sink.emit, infinite_lt, Bool.false_eq_true, if_false]
      rw [Sink.emitAll, List.foldl_cons, hemit]
      exact (ih (held ++ [e])).trans (List.append_assoc held [e] rest)

/-- It holds all that was reported. -/
theorem collected_eq {α : Type} (x : Traced α) : collected x = x.events :=
  events_emitAll x.events []

/-- All that is reported of a pair, whatever the options are: what matching reports, then how
the build went. -/
structure Reports (dest : Dest) (desc : Desc) (reports : List Event) (last : Event) : Prop where
  /-- For either policy the same is reported. The second match for the strict runs of a lenient
  converter adds nothing. -/
  matching : ∀ policy, (Plan.buildBoth policy dest desc []).events = reports
  /-- How the build went is reported once, at its end. -/
  collected : ∀ {options : Layer} {config : Config}, options.resolve = .ok config →
    collected (build dest desc options) = reports ++ [last]

/-- What a build reports, if all that it reports of the pair is known. -/
theorem reports_of_compiled {result : Except Failure Compiled}
    (h : (Compiled.once dest desc []).result = result) :
    Reports dest desc (Compiled.once dest desc []).events (report dest desc result) where
  matching policy := by
    rw [Plan.buildBoth_eq, Traced.map, Compiled.once]
    cases hplan : (Plan.build dest desc []).result with
    | error e => rw [Traced.bind_of_error hplan]
    | ok plan =>
        rw [Traced.bind_of_ok hplan]
        cases dest.sourceExtent desc <;> exact (List.append_nil _).symm
  collected hoptions := by
    rw [collected_eq, build_of_resolve dest desc hoptions, h]

/-- **What a build reports.** If it succeeds, all that is listed of the pair; if it fails, what is
listed before the first fault, which the failure is of. At its end it reports how it went. -/
theorem build_reports (hoptions : options.resolve = .ok config) :
    (∀ c, (build dest desc options).result = .ok c →
      ∃ reports, dest.survey desc [] = reports.map .report ∧
        Reports dest desc reports (.converterBuilt dest.name desc.display)) ∧
    ∀ f, (build dest desc options).result = .error f →
      ∃ reports path o after,
        Compiled.survey dest desc = reports.map .report ++ .fault path o :: after ∧
        f = Failure.located o [] path ∧
        Reports dest desc reports
          (.buildFailed dest.name desc.display f.reason f.message) := by
  constructor
  · intro c hc
    have hcompiled := compiled_of_ok hoptions hc
    exact ⟨_, Compiled.all_of_ok hcompiled, reports_of_compiled hcompiled⟩
  · intro f hf
    have hcompiled := (error_iff_compiled hoptions).mp hf
    obtain ⟨path, o, hlocated, -, ⟨after, hsurvey⟩, -⟩ := Compiled.first_of_error hcompiled
    exact ⟨_, path, o, after, hsurvey, hlocated, reports_of_compiled hcompiled⟩

/-- The sample passes over the case that its source lacks; with a misfit for a level it comes to
no more than that, either. -/
theorem build_reports_sample :
    Reports Sample.dest Sample.desc [.ctorSkipped ["reading"] "idle"]
        (.converterBuilt Sample.dest.name Sample.desc.display) ∧
      ∃ f : Failure, Reports Sample.dest misfit [.ctorSkipped ["reading"] "idle"]
        (.buildFailed Sample.dest.name misfit.display f.reason f.message) := by
  obtain ⟨config, hoptions⟩ := options_resolve
  constructor
  · obtain ⟨reports, hreports, h⟩ := (build_reports hoptions).1 _ Sample.built
    have hsurvey : Sample.dest.survey Sample.desc [] =
        [Event.ctorSkipped ["reading"] "idle"].map .report := by
      decide +kernel
    rw [List.map_injective_iff.mpr (fun _ _ h => Mark.report.inj h) (hreports.symm.trans hsurvey)]
      at h
    exact h
  · obtain ⟨f, hf⟩ := misfit_fails
    obtain ⟨reports, path, o, after, hreports, -, h⟩ := (build_reports hoptions).2 f hf
    obtain ⟨rfl, -, -⟩ := Mark.first_inj (survey_misfit.symm.trans hreports)
    exact ⟨f, h⟩

end Converter

end Relayout

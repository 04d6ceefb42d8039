import Relayout.Proofs.Matching

/-!
# Where a build fails

A build that fails does so by one cause, raised at one node. On its way out the
failure passes the nodes around, and each of them puts the name of its part in
front of the message. The path of the node is noted once and kept. So a failure
is told by its cause and by the segments that lead from where the build began to
the node that failed. Neither of them depends on where that was.
-/

namespace Relayout

/-! ## Causes at a node -/

namespace Cause

/-- The cause at the node at `path`. A cause that names no node stays as it is. -/
def atNode (path : List Text) : Cause → Cause
  | kindMismatch expected actual _ => kindMismatch expected actual path
  | noConversionPath source dest _ => noConversionPath source dest path
  | invalidLength len _ => invalidLength len path
  | lengthMismatch expected actual _ => lengthMismatch expected actual path
  | missingField field _ => missingField field path
  | invalidLayout field size _ => invalidLayout field size path
  | other => other

@[simp] theorem reason_atNode (c : Cause) (path : List Text) : (c.atNode path).reason = c.reason := by
  cases c <;> rfl

@[simp] theorem message_atNode (c : Cause) (path : List Text) :
    (c.atNode path).message = c.message := by
  cases c <;> rfl

/-- No cause states a path among its facts. -/
theorem lookup?_path (c : Cause) : Json.lookup? "path" ((c.failure).context.getD []) = none := by
  cases c <;> rfl

end Cause

/-- What makes a build give up: a cause at the node that is being matched, or one of the layout
of its source, which names no node. -/
inductive Origin where
  | node (cause : Cause)
  | layout (cause : Cause)
  deriving DecidableEq

namespace Origin

/-- The cause, wherever it is raised. -/
def cause : Origin → Cause
  | node c => c
  | layout c => c

/-- The cause, as it is raised at the node at `path`. -/
def raisedAt (path : List Text) : Origin → Cause
  | node c => c.atNode path
  | layout c => c

theorem reason_raisedAt (o : Origin) (path : List Text) :
    (o.raisedAt path).reason = o.cause.reason := by
  cases o <;> simp [raisedAt, cause]

theorem message_raisedAt (o : Origin) (path : List Text) :
    (o.raisedAt path).message = o.cause.message := by
  cases o <;> simp [raisedAt, cause]

end Origin

/-! ## Failures on their way out -/

namespace Json

/-- A member that has been set is found. -/
theorem lookup?_set (name : Text) (value : Json) (ms : Members) :
    lookup? name (set ms name value) = some value := by
  have hhead : ∀ rest, lookup? name ((name, value) :: rest) = some value := by simp [lookup?]
  have hskip : ∀ other v rest, other ≠ name →
      lookup? name ((other, v) :: rest) = lookup? name rest := by
    intro other v rest hne
    simp [lookup?, hne]
  rw [set]
  split
  · rename_i hany
    induction ms with
    | nil => cases hany
    | cons m rest ih =>
        obtain ⟨other, v⟩ := m
        rw [replaceOld]
        split
        · exact hhead rest
        · rename_i hne
          rw [hskip _ _ _ hne]
          exact ih (by simpa [hne] using hany)
  · rename_i hany
    induction ms with
    | nil => exact hhead []
    | cons m rest ih =>
        obtain ⟨other, v⟩ := m
        simp only [List.any_cons, Bool.or_eq_true, decide_eq_true_eq, not_or] at hany
        rw [insertNew]
        split
        · exact hhead _
        · rw [hskip _ _ _ hany.1]
          exact ih hany.2

end Json

namespace Failure

/-- The path that a failure notes. -/
def path? (f : Failure) : Option Json :=
  Json.lookup? "path" (f.context.getD [])

/-- A path as it is noted. -/
def noted (path : List Text) : Json :=
  .arr (path.map .str)

/-- A failure that passes a node notes the node's path, unless it notes one already. -/
theorem path?_within (segment : Text) (path : List Text) (f : Failure) :
    (f.within segment path).path? = some ((Json.stated f.path?).getD (noted path)) :=
  Json.lookup?_set _ _ _

/-- The failure of a build that began at `path` and gave up at the node that `segments` lead to. -/
def located (o : Origin) : (path segments : List Text) → Failure
  | path, [] => (o.raisedAt path).failure
  | path, segment :: rest => (located o (path ++ [segment]) rest).within segment (path ++ [segment])

/-- The names of parts, as they are put in front of a message. -/
def prefixes : List Text → Text
  | [] => []
  | segment :: rest => segment ++ ": " ++ prefixes rest

theorem reason_located (o : Origin) (path segments : List Text) :
    (located o path segments).reason = o.cause.reason := by
  induction segments generalizing path with
  | nil => exact o.reason_raisedAt path
  | cons segment rest ih => exact ih _

theorem message_located (o : Origin) (path segments : List Text) :
    (located o path segments).message = prefixes segments ++ o.cause.message := by
  induction segments generalizing path with
  | nil => exact o.message_raisedAt path
  | cons segment rest ih =>
      show segment ++ ": " ++ (located o (path ++ [segment]) rest).message = _
      rw [ih, prefixes]
      simp only [List.append_assoc]

/-- **The path that is noted is that of the node that gave up.** At that node itself none is noted. -/
theorem path?_located (o : Origin) (path : List Text) (segment : Text) (rest : List Text) :
    (located o path (segment :: rest)).path? = some (noted (path ++ segment :: rest)) := by
  rw [located, path?_within]
  cases rest with
  | nil =>
      have hnone : (located o (path ++ [segment]) []).path? = none := Cause.lookup?_path _
      rw [hnone]
      rfl
  | cons next rest =>
      rw [path?_located o (path ++ [segment]) next rest, List.append_assoc]
      rfl

end Failure

/-! ## Computations that fail alike everywhere -/

namespace Traced

variable {α β : Type}

/-- Wherever the computation begins, it comes to the same value, or it gives up for the same
reason at the same place below. -/
def Uniform (x : List Text → Traced α) : Prop :=
  (∃ a, ∀ path, (x path).result = .ok a) ∨
    ∃ o segments, ∀ path, (x path).result = .error (Failure.located o path segments)

theorem uniform_ok {x : List Text → Traced α} {a : α} (h : ∀ path, (x path).result = .ok a) :
    Uniform x :=
  Or.inl ⟨a, h⟩

theorem uniform_node {cause : List Text → Cause} (h : ∀ path, cause path = (cause []).atNode path) :
    Uniform (fun path => (fail (cause path).failure : Traced α)) := by
  refine Or.inr ⟨.node (cause []), [], fun path => ?_⟩
  show Except.error _ = Except.error (((cause []).atNode path).failure)
  rw [h path]

theorem uniform_layout (x : Except Cause α) : Uniform (fun _ => ofCause x) := by
  cases x with
  | error c => exact Or.inr ⟨.layout c, [], fun _ => rfl⟩
  | ok a => exact uniform_ok fun _ => rfl

theorem Uniform.bind {x : List Text → Traced α} {f : List Text → α → Traced β} (hx : Uniform x)
    (hf : ∀ a, Uniform fun path => f path a) : Uniform fun path => x path >>= f path := by
  rcases hx with ⟨a, ha⟩ | ⟨o, segments, hfail⟩
  · rcases hf a with ⟨b, hb⟩ | ⟨o, segments, hfail⟩
    · exact Or.inl ⟨b, fun path => (result_bind_of_ok (ha path)).trans (hb path)⟩
    · exact Or.inr ⟨o, segments, fun path => (result_bind_of_ok (ha path)).trans (hfail path)⟩
  · exact Or.inr ⟨o, segments, fun path => result_bind_of_error (hfail path)⟩

end Traced

namespace Plan

open Traced

/-- A failure inside a part is located by the part and by where it is inside. -/
theorem inPart_located {α : Type} {x : List Text → Traced α} {o : Origin} {segments : List Text}
    (h : ∀ path, (x path).result = .error (Failure.located o path segments)) (path : List Text)
    (segment : Text) :
    (inPart path segment x).result = .error (Failure.located o path (segment :: segments)) := by
  simp only [inPart, Traced.mapFailure, h]
  rfl

theorem uniform_inPart {α : Type} {x : List Text → Traced α} (hx : Uniform x) (segment : Text) :
    Uniform fun path => Plan.inPart path segment x := by
  rcases hx with ⟨a, ha⟩ | ⟨o, segments, hfail⟩
  · exact uniform_ok fun path => result_inPart.mpr (ha _)
  · exact Or.inr ⟨o, segment :: segments, fun path => inPart_located hfail path segment⟩

theorem uniform_buildPrim (surface : Surface) (source : Text) (widensFrom : List Text)
    (codec : Prim) (desc : Desc) :
    Uniform fun path => ofCause (buildPrim surface source widensFrom codec desc path) := by
  cases desc with
  | prim name =>
      simp only [buildPrim]
      split
      · exact uniform_ok fun _ => rfl
      · split
        · split
          · exact uniform_ok fun _ => rfl
          · exact uniform_node fun _ => rfl
        · exact uniform_node fun _ => rfl
  | _ => exact uniform_node fun _ => rfl

theorem uniform_checkLength (length : Num) (len : Desc) :
    Uniform fun path => ofCause (checkLength length len path) := by
  cases len with
  | nat n =>
      simp only [checkLength]
      split
      · split
        · exact uniform_ok fun _ => rfl
        · exact uniform_node fun _ => rfl
      · exact uniform_node fun _ => rfl
  | _ => exact uniform_node fun _ => rfl

mutual

/-- **A build fails alike wherever it begins**: by the same cause, at the same place below. -/
theorem uniform_build : ∀ (dest : Dest) (desc : Desc), Uniform (build dest desc)
  | .prim surface source widensFrom codec, desc => by
      show Uniform fun path => build (.prim surface source widensFrom codec) desc path
      simp only [build]
      exact uniform_buildPrim surface source widensFrom codec desc
  | .array surface elem length count, desc => by
      show Uniform fun path => build (.array surface elem length count) desc path
      cases desc with
      | array elemDesc len =>
          simp only [build]
          exact (uniform_checkLength length len).bind fun _ =>
            (uniform_inPart (uniform_build elem elemDesc) "[]").bind fun _ =>
              (uniform_layout _).bind fun _ => uniform_ok fun _ => rfl
      | _ => exact uniform_node fun _ => rfl
  | .record surface slots, desc => by
      show Uniform fun path => build (.record surface slots) desc path
      cases desc with
      | struct fields =>
          simp only [build]
          exact (uniform_buildSlots surface.size fields slots).bind fun _ =>
            (uniform_ok fun _ => rfl).bind fun _ => uniform_ok fun _ => rfl
      | _ => exact uniform_node fun _ => rfl
  | .variant surface cases payloadOffset decodedAt, desc => by
      show Uniform fun path => build (.variant surface cases payloadOffset decodedAt) desc path
      cases desc with
      | variant ctors =>
          simp only [build]
          exact (uniform_buildCases surface.size payloadOffset ctors cases 1 []).bind fun _ =>
            uniform_ok fun _ => rfl
      | _ => exact uniform_node fun _ => rfl

theorem uniform_buildSlots (size : Num) (fields : List (Field Desc)) :
    ∀ slots : List (Slot Dest), Uniform fun path => buildSlots size fields path slots
  | [] => uniform_ok fun _ => rfl
  | s :: rest => by
      simp only [buildSlots]
      split
      · exact uniform_node fun _ => rfl
      · split
        · exact uniform_node fun _ => rfl
        · exact (uniform_inPart (uniform_build s.type _) s.name).bind fun _ =>
            (uniform_buildSlots size fields rest).bind fun _ => uniform_ok fun _ => rfl

theorem uniform_buildCases (size payloadOffset : Num) (ctors : List (Ctor Desc)) :
    ∀ (cases : List (Case Dest)) (widest : Num) (arms : List (Arm Plan)),
      Uniform fun path => buildCases size payloadOffset ctors path cases widest arms
  | [], _, _ => uniform_ok fun _ => rfl
  | c :: rest, _, _ => by
      simp only [buildCases]
      split
      · exact (uniform_ok fun _ => rfl).bind fun _ =>
          uniform_buildCases size payloadOffset ctors rest _ _
      · split
        · exact uniform_node fun _ => rfl
        · exact (uniform_layout _).bind fun _ =>
            (uniform_inPart (uniform_build c.type _) c.name).bind fun _ =>
              uniform_buildCases size payloadOffset ctors rest _ _

end

end Plan

end Relayout

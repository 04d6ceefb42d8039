import Relayout.Proofs.Located

/-!
# Chains of failures

Each node around the one that gave up wraps the failure once more. The chain of
wraps ends in the failure that was raised. All of them tell the same reason and
the same diagnostics, and every wrap notes the same path: that of the node that
gave up (`relays_located`).
-/

namespace Relayout

namespace Json

/-- Setting a member to the value that it has changes nothing. -/
theorem set_of_lookup? {name : Text} {value : Json} {ms : Members}
    (h : lookup? name ms = some value) : set ms name value = ms := by
  induction ms with
  | nil => cases h
  | cons m rest ih =>
      obtain ⟨other, v⟩ := m
      by_cases hother : other = name
      · have hv : v = value := by simpa [lookup?, hother] using h
        simp [set, replaceOld, hother, hv]
      · have hrest : lookup? name rest = some value := by simpa [lookup?, hother] using h
        have hany : rest.any (·.1 = name) = true := by
          obtain ⟨found, hfound, -⟩ := Option.map_eq_some_iff.mp hrest
          have hname := List.find?_some hfound
          exact List.any_eq_true.mpr ⟨found, List.mem_of_find?_eq_some hfound, hname⟩
        have hset := ih hrest
        rw [set, if_pos hany] at hset
        simp [set, replaceOld, hother, hany, hset]

end Json

namespace Failure

/-! ## The chain -/

/-- The failure and its causes, the outermost first. -/
def chain : Failure → List Failure
  | f@(mk _ _ _ _ _ none) => [f]
  | f@(mk _ _ _ _ _ (some cause)) => f :: cause.chain

theorem chain_wrap (inner : Failure) (message : Text) (context : Json.Members) :
    (inner.wrap message context).chain = inner.wrap message context :: inner.chain :=
  rfl

theorem chain_ne_nil : ∀ f : Failure, f.chain ≠ []
  | mk _ _ _ _ _ none => List.cons_ne_nil _ _
  | mk _ _ _ _ _ (some _) => List.cons_ne_nil _ _

/-- The chain ends in the root cause. -/
theorem getLast?_chain : ∀ f : Failure, f.chain.getLast? = some f.rootCause
  | mk _ _ _ _ _ none => rfl
  | mk _ _ _ _ _ (some cause) => by
      rw [chain, rootCause, List.getLast?_cons, getLast?_chain cause, Option.getD_some]

/-! ## The links of a located failure -/

theorem recoverable_located (o : Origin) (path segments : List Text) :
    (located o path segments).recoverable = false := by
  induction segments generalizing path with
  | nil => rfl
  | cons segment rest ih => exact ih (path ++ [segment])

theorem diagnostics_located (o : Origin) (path segments : List Text) :
    (located o path segments).diagnostics =
      (o.raisedAt (path ++ segments)).failure.diagnostics := by
  induction segments generalizing path with
  | nil => rw [List.append_nil, located]
  | cons segment rest ih =>
      rw [List.append_cons]
      exact ih (path ++ [segment])

theorem rootCause_located (o : Origin) (path segments : List Text) :
    (located o path segments).rootCause = (o.raisedAt (path ++ segments)).failure := by
  induction segments generalizing path with
  | nil =>
      rw [List.append_nil, located]
      rfl
  | cons segment rest ih =>
      rw [List.append_cons]
      exact ih (path ++ [segment])

/-- There is one wrap for each segment. -/
theorem length_chain_located (o : Origin) (path segments : List Text) :
    (located o path segments).chain.length = segments.length + 1 := by
  induction segments generalizing path with
  | nil => rfl
  | cons segment rest ih =>
      rw [located, within, chain_wrap, List.length_cons, ih, List.length_cons]

/-- A wrap sets the path in the context of what it wraps. -/
theorem context_located_cons (o : Origin) (path : List Text) (segment : Text) (rest : List Text) :
    (located o path (segment :: rest)).context =
      some (Json.set ((located o (path ++ [segment]) rest).context.getD []) "path"
        (noted (path ++ segment :: rest))) := by
  have hpath := path?_located o path segment rest
  rw [located, path?_within] at hpath
  rw [located, ← Option.some.inj hpath]
  rfl

/-- **Every wrap adds the same path to the facts of the failure that was raised.** -/
theorem context_located (o : Origin) (path : List Text) (segment : Text) (rest : List Text) :
    (located o path (segment :: rest)).context =
      some (Json.set ((o.raisedAt (path ++ segment :: rest)).failure.context.getD []) "path"
        (noted (path ++ segment :: rest))) := by
  induction rest generalizing path segment with
  | nil => exact context_located_cons o path segment []
  | cons next rest ih =>
      rw [context_located_cons, ih (path ++ [segment]) next, ← List.append_cons, Option.getD_some,
        Json.set_of_lookup? (Json.lookup?_set _ _ _)]

theorem context_of_link (o : Origin) (path segments : List Text) :
    ∀ link ∈ (located o path segments).chain.dropLast, link.context =
      some (Json.set ((o.raisedAt (path ++ segments)).failure.context.getD []) "path"
        (noted (path ++ segments))) := by
  induction segments generalizing path with
  | nil => exact fun link hlink => absurd hlink List.not_mem_nil
  | cons segment rest ih =>
      intro link hlink
      have hchain : (located o path (segment :: rest)).chain =
          located o path (segment :: rest) :: (located o (path ++ [segment]) rest).chain := rfl
      rw [hchain, List.dropLast_cons_of_ne_nil (chain_ne_nil _)] at hlink
      rcases List.mem_cons.mp hlink with rfl | hinner
      · exact context_located o path segment rest
      · rw [List.append_cons]
        exact ih (path ++ [segment]) link hinner

/-! ## What is told of the failure that was raised -/

/-- The failure tells of one that was raised at the node that `path` leads to. -/
structure Relays (f raised : Failure) (path : List Text) : Prop where
  /-- The reason stays. -/
  reason : f.reason = raised.reason
  /-- Whether it may be tried again stays. -/
  recoverable : f.recoverable = raised.recoverable
  /-- The names of the parts on the way stand in front of the message. -/
  message : f.message = prefixes path ++ raised.message
  /-- The diagnostics stay. -/
  diagnostics : f.diagnostics = raised.diagnostics
  /-- There is one wrap for each part on the way. -/
  wraps : f.chain.length = path.length + 1
  /-- The chain of wraps ends in the failure that was raised. -/
  ends : f.chain.getLast? = some raised
  /-- That failure is the root cause. -/
  root : f.rootCause = raised
  /-- Every wrap adds the whole path to the facts of that failure. -/
  context : ∀ link ∈ f.chain.dropLast,
    link.context = some (Json.set (raised.context.getD []) "path" (noted path))

/-- **A located failure tells of the one that was raised.** -/
theorem relays_located (o : Origin) (segments : List Text) :
    (located o [] segments).Relays (o.raisedAt segments).failure segments where
  reason := (reason_located o [] segments).trans (o.reason_raisedAt segments).symm
  recoverable := recoverable_located o [] segments
  message := (message_located o [] segments).trans
    (congrArg _ (o.message_raisedAt segments).symm)
  diagnostics := diagnostics_located o [] segments
  wraps := length_chain_located o [] segments
  ends := (getLast?_chain _).trans (congrArg some (rootCause_located o [] segments))
  root := rootCause_located o [] segments
  context := context_of_link o [] segments

end Failure

end Relayout

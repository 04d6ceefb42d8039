import Relayout.Proofs.Replay

/-!
# Runs and their histories

Every run is the replay of its trail, for the history of what it finds: each entry is
what the source shows at a moment of that very run. A source apart from the destination
shows the same throughout. Another run takes the same steps if it keeps in step: a
relation on memories under which both sources show the same where the trail reads, and
which each write of the trail carries on.
-/

namespace Relayout

/-! ## Moments -/

/-- The memories that a replay comes through, the last one included. -/
def Step.moments : List Step → Memory → List Memory
  | [], m => [m]
  | step :: rest, m => m :: moments rest (step.on m).memory

/-- What keeps two runs in step: where a step reads, related memories let both sources
show the same, and a write that the second admits is admitted by the first, too, and
keeps them related. -/
def Step.Keeps (src src' : Source) (R : Memory → Memory → Prop) : Step → Prop
  | read start width =>
    ∀ m m', R m m' → (src'.seen m').load start width = (src.seen m).load start width
  | write start bytes =>
    ∀ m m' n', R m m' → m'.store start bytes = .ok n' →
      ∃ n, m.store start bytes = .ok n ∧ R n n'
  | report _ => True

namespace Trail

def moments (t : Trail) (m : Memory) : List Memory :=
  Step.moments t.steps m

variable {t u : Trail} {m m' : Memory}

theorem self_mem_moments (t : Trail) (m : Memory) : m ∈ t.moments m := by
  rw [moments]
  cases t.steps with
  | nil => exact List.mem_singleton_self m
  | cons step rest => exact List.mem_cons_self

theorem size_of_mem_moments (h : m' ∈ t.moments m) : m'.size = m.size := by
  obtain ⟨steps, stop⟩ := t
  rw [moments] at h
  induction steps generalizing m with
  | nil => rw [List.mem_singleton.mp h]
  | cons step rest ih =>
      rcases List.mem_cons.mp h with rfl | h
      · rfl
      · exact (ih h).trans (Step.size_on step m)

theorem moments_append_left {steps more : List Step} (h : m' ∈ Step.moments steps m) :
    m' ∈ Step.moments (steps ++ more) m := by
  induction steps generalizing m with
  | nil =>
      obtain rfl := List.mem_singleton.mp h
      exact self_mem_moments ⟨more, none⟩ m'
  | cons step rest ih =>
      rcases List.mem_cons.mp h with rfl | h
      · exact List.mem_cons_self
      · exact List.mem_cons_of_mem _ (ih h)

theorem moments_andThen_left (u : Trail) (h : m' ∈ t.moments m) :
    m' ∈ (t.andThen u).moments m := by
  cases hstop : t.stop with
  | some f => rwa [andThen_of_stop hstop]
  | none =>
      rw [andThen, hstop]
      exact moments_append_left h

/-- A trail that goes through anywhere has no stop. -/
theorem stop_of_on (h : (t.on m).stop = none) : t.stop = none := by
  obtain ⟨steps, stop⟩ := t
  induction steps generalizing m with
  | nil => exact h
  | cons step rest ih =>
      simp only [on, Step.replay] at h ih
      rcases hstep : step.on m with ⟨m₁, events, _ | f⟩
      · rw [hstep] at h
        exact ih h
      · rw [hstep] at h
        cases h

/-- What comes after a trail that went through comes after it in the chain. -/
theorem moments_andThen_right (hthrough : (t.on m).stop = none)
    (h : m' ∈ u.moments (t.on m).memory) : m' ∈ (t.andThen u).moments m := by
  obtain ⟨steps, stop⟩ := t
  obtain rfl : stop = none := stop_of_on hthrough
  show m' ∈ Step.moments (steps ++ u.steps) m
  induction steps generalizing m with
  | nil => exact h
  | cons step rest ih =>
      simp only [on, Step.replay] at hthrough h ih
      rcases hstep : step.on m with ⟨m₁, events, _ | f⟩
      · rw [hstep] at hthrough h
        rw [List.cons_append, Step.moments, hstep]
        exact List.mem_cons_of_mem _ (ih hthrough h)
      · rw [hstep] at hthrough
        cases hthrough

/-- In step, a replay that goes through in the second run goes through in the first. -/
theorem on_keeps {src src' : Source} {R : Memory → Memory → Prop}
    (keeps : t.All (Step.Keeps src src' R)) (h : R m m') (hthrough : (t.on m').stop = none) :
    (t.on m).stop = none ∧ R (t.on m).memory (t.on m').memory := by
  obtain ⟨steps, stop⟩ := t
  induction steps generalizing m m' with
  | nil => exact ⟨hthrough, h⟩
  | cons step rest ih =>
      have hrest : (⟨rest, stop⟩ : Trail).All (Step.Keeps src src' R) :=
        fun s hs => keeps s (List.mem_cons_of_mem _ hs)
      cases step with
      | read start width => exact ih h hrest hthrough
      | report event => exact ih h hrest hthrough
      | write start bytes =>
          have hkeep := keeps _ List.mem_cons_self m m'
          simp only [on, Step.replay, Step.on] at hthrough ih ⊢
          cases hstore : m'.store start bytes with
          | error d =>
              rw [hstore] at hthrough
              cases hthrough
          | ok n' =>
              obtain ⟨n, hn, hR⟩ := hkeep n' h hstore
              rw [hstore] at hthrough
              rw [hn]
              exact ih hR hrest hthrough

theorem iterate_congr {part part' : Nat → Trail} {i : Nat} (h : ∀ j, i ≤ j → part j = part' j)
    (count : Nat) : iterate part i count = iterate part' i count := by
  induction count generalizing i with
  | zero => rfl
  | succ count ih =>
      rw [iterate, iterate, h i (Nat.le_refl i), ih fun j hj => h j (by omega)]

end Trail

/-! ## Programs in step -/

/-- What reads a source and writes a memory. -/
abbrev Program := Source → Memory → Run

/-- Whatever keeps in step with the trail, taken from `m` on with `src` beside it, takes the steps
of the trail. -/
def Program.Follows (p : Program) (src : Source) (t : Trail) (m : Memory) : Prop :=
  ∀ (src' : Source) (R : Memory → Memory → Prop) (m' : Memory),
    t.All (Step.Keeps src src' R) → R m m' → p src' m' = t.on m'

namespace Program

variable {p q : Program} {src : Source} {t u : Trail} {m : Memory}

/-- The run itself is in step. -/
theorem Follows.run_eq (h : p.Follows src t m) : p src m = t.on m := by
  refine h src Eq m (fun step _ => ?_) rfl
  cases step with
  | read start width =>
      rintro m _ rfl
      rfl
  | write start bytes =>
      rintro m _ n rfl hn
      exact ⟨n, hn, rfl⟩
  | report event => trivial

/-- A program that does not look at the source. -/
theorem follows_of_blind (h : ∀ src m, p src m = t.on m) : p.Follows src t m :=
  fun src' _ m' _ _ => h src' m'

/-- A program that reads bytes and goes on with them. -/
theorem follows_reading {start : Num} {width : Nat} {p : List UInt8 → Program}
    {next : List UInt8 → Trail}
    (h : ∀ bytes, (src.seen m).load start width = .ok bytes → (p bytes).Follows src (next bytes) m) :
    Follows (fun src m =>
      match (src.seen m).load start width with
      | .ok bytes => p bytes src m
      | .error d => .stopped m (.defect d)) src (.reading (src.seen m) start width next) m := by
  intro src' R m' keeps hR
  rw [Trail.on_reading]
  rw [Trail.reading] at keeps
  cases hload : (src.seen m).load start width with
  | error d =>
      rw [hload] at keeps
      have hread := keeps _ List.mem_cons_self m m' hR
      simp only [hread, hload]
  | ok bytes =>
      rw [hload] at keeps
      have hread := keeps _ List.mem_cons_self m m' hR
      simp only [hread, hload]
      exact h bytes hload src' R m' (fun s hs => keeps s (List.mem_cons_of_mem _ hs)) hR

/-- Two programs one after the other; the second is reached only if the first goes through. -/
theorem Follows.andThen (hp : p.Follows src t m)
    (hq : (t.on m).stop = none → q.Follows src u (t.on m).memory) :
    Follows (fun src m => (p src m).andThen (q src)) src (t.andThen u) m := by
  intro src' R m' keeps hR
  have hfirst : t.All (Step.Keeps src src' R) := by
    cases hstop : t.stop with
    | some f => rwa [Trail.andThen_of_stop hstop] at keeps
    | none =>
        rw [Trail.andThen, hstop] at keeps
        exact fun s hs => keeps s (List.mem_append_left _ hs)
  simp only
  rw [Trail.on_andThen, hp src' R m' hfirst hR]
  rcases hon : t.on m' with ⟨m₁, events, _ | f⟩
  · -- the first is through, so its trail has no stop and the second is in step behind it
    have hthrough : (t.on m').stop = none := by rw [hon]
    obtain ⟨hthrough', hR'⟩ := Trail.on_keeps hfirst hR hthrough
    have hsecond : u.All (Step.Keeps src src' R) := by
      rw [Trail.andThen, Trail.stop_of_on hthrough] at keeps
      exact fun s hs => keeps s (List.mem_append_right _ hs)
    have hrest := hq hthrough' src' R _ hsecond hR'
    rw [hon] at hrest
    simp only [Run.andThen, hrest]
  · rfl

end Program

/-! ## The history of a run -/

/-- What the history holds is what the source shows at moments of the trail, and the program
follows the trail. -/
structure History.Of (h : History) (src : Source) (p : Program) (t : Trail) (m : Memory) : Prop where
  moments : ∀ place, ∃ m' ∈ t.moments m, h.seen place = src.seen m'
  follows : p.Follows src t m

namespace History

variable {src : Source} {p q : Program} {t u : Trail} {m : Memory}

/-- What is found where the source shows the same throughout. -/
theorem Of.eq_always {h : History} {m₀ : Memory} (of : h.Of src p t m)
    (hsame : ∀ m' ∈ t.moments m, src.seen m' = m₀) : h = always m₀ := by
  obtain ⟨seen⟩ := h
  refine congrArg History.mk (funext fun place => ?_)
  obtain ⟨m', hmem, hplace⟩ := of.moments place
  exact hplace.trans (hsame m' hmem)

theorem Of.congr {h : History} (of : h.Of src q t m) (hpq : ∀ src m, p src m = q src m) :
    h.Of src p t m :=
  ⟨of.moments, fun src' R m' keeps hR => (hpq src' m').trans (of.follows src' R m' keeps hR)⟩

/-- What a program finds that does not look at the source. -/
theorem of_blind (h : ∀ src m, p src m = t.on m) : (always (src.seen m)).Of src p t m :=
  ⟨fun _ => ⟨m, t.self_mem_moments m, rfl⟩, Program.follows_of_blind h⟩

/-- What a program finds behind a trail, which it may not reach. -/
theorem exists_behind {u : History → Trail} (t : Trail)
    (h : ∀ m, ∃ h : History, h.Of src q (u h) m) (m : Memory) :
    ∃ h : History, (∀ place, ∃ m' ∈ (t.andThen (u h)).moments m, h.seen place = src.seen m') ∧
      ((t.on m).stop = none → q.Follows src (u h) (t.on m).memory) := by
  by_cases hthrough : (t.on m).stop = none
  · obtain ⟨h, hof⟩ := h (t.on m).memory
    refine ⟨h, fun place => ?_, fun _ => hof.follows⟩
    obtain ⟨m', hm', hplace⟩ := hof.moments place
    exact ⟨m', Trail.moments_andThen_right hthrough hm', hplace⟩
  · exact ⟨always (src.seen m), fun _ => ⟨m, Trail.self_mem_moments _ m, rfl⟩,
      fun h => absurd h hthrough⟩

/-- The history of a read and of what goes on with the bytes. -/
def reading (first : Memory) (h : History) : History where
  seen
    | [] => first
    | _ :: place => h.seen place

/-- The history of the part with number `i` among the histories of others. -/
def insert (i : Nat) (h others : History) : History where
  seen
    | [] => others.seen []
    | j :: place => if j = i then h.seen place else others.seen (j :: place)

/-- The history of a first part and of the parts behind it. -/
def cons (h others : History) : History where
  seen
    | [] => others.seen []
    | 0 :: place => h.seen place
    | (i + 1) :: place => others.seen (i :: place)

theorem part_insert_self (i : Nat) (h others : History) : (insert i h others).part i = h := by
  simp [insert, part]

theorem part_insert_of_ne {i j : Nat} (hne : j ≠ i) (h others : History) :
    (insert i h others).part j = others.part j := by
  simp [insert, part, hne]

theorem rest_cons (h others : History) : (cons h others).rest = others := by
  refine congrArg History.mk (funext fun place => ?_)
  cases place <;> rfl

/-- What a program finds that reads bytes and goes on with them. -/
theorem exists_reading (start : Num) (width : Nat) (p : List UInt8 → Program)
    (next : History → List UInt8 → Trail)
    (h : ∀ bytes, ∃ h : History, h.Of src (p bytes) (next h bytes) m) :
    ∃ h : History, (reading (src.seen m) h).Of src (fun src m =>
      match (src.seen m).load start width with
      | .ok bytes => p bytes src m
      | .error d => .stopped m (.defect d)) (.reading (src.seen m) start width (next h)) m := by
  cases hload : (src.seen m).load start width with
  | error d =>
      refine ⟨always (src.seen m), fun place => ⟨m, Trail.self_mem_moments _ m, ?_⟩,
        Program.follows_reading fun bytes hbytes => ?_⟩
      · cases place <;> rfl
      · rw [hload] at hbytes
        cases hbytes
  | ok bytes =>
      obtain ⟨h, hof⟩ := h bytes
      refine ⟨h, fun place => ?_, Program.follows_reading fun bytes' hbytes => ?_⟩
      · rw [Trail.reading, hload]
        cases place with
        | nil => exact ⟨m, Trail.self_mem_moments _ m, rfl⟩
        | cons i place =>
            obtain ⟨m', hm', hplace⟩ := hof.moments place
            exact ⟨m', List.mem_cons_of_mem _ hm', hplace⟩
      · obtain rfl := Except.ok.inj (hload.symm.trans hbytes)
        exact hof.follows

/-- What repeated parts find. -/
theorem exists_iterate {p : Nat → Program} {t : Nat → History → Trail}
    (h : ∀ i m, ∃ h : History, h.Of src (p i) (t i h) m) (i count : Nat) (m : Memory) :
    ∃ h : History, h.Of src (fun src => Run.iterate (fun j => p j src) i count)
      (.iterate (fun j => t j (h.part j)) i count) m := by
  induction count generalizing i m with
  | zero => exact ⟨_, of_blind fun _ _ => rfl⟩
  | succ count ih =>
      obtain ⟨first, hfirst⟩ := h i m
      obtain ⟨others, hmoments, hfollows⟩ := exists_behind (t i first) (ih (i + 1)) m
      have hothers : Trail.iterate (fun j => t j ((insert i first others).part j)) (i + 1) count =
          Trail.iterate (fun j => t j (others.part j)) (i + 1) count :=
        Trail.iterate_congr (fun j hj => by rw [part_insert_of_ne (by omega)]) count
      refine ⟨insert i first others, ?_, ?_⟩
      · rw [Trail.iterate, part_insert_self, hothers]
        rintro (_ | ⟨j, place⟩)
        · exact hmoments []
        · by_cases hj : j = i
          · subst hj
            obtain ⟨m', hm', hplace⟩ := hfirst.moments place
            refine ⟨m', Trail.moments_andThen_left _ hm', ?_⟩
            simp [insert, hplace]
          · obtain ⟨m', hm', hplace⟩ := hmoments (j :: place)
            refine ⟨m', hm', ?_⟩
            simp [insert, hj, hplace]
      · rw [Trail.iterate, part_insert_self, hothers]
        exact hfirst.follows.andThen hfollows

/-- What a first part and the parts behind it find. -/
theorem exists_cons {first : History → Trail} {others : History → Trail}
    (hp : ∃ h : History, h.Of src p (first h) m) (hq : ∀ m, ∃ h : History, h.Of src q (others h) m) :
    ∃ h : History, h.Of src (fun src m => (p src m).andThen (q src))
      ((first (h.part 0)).andThen (others h.rest)) m := by
  obtain ⟨h, hof⟩ := hp
  obtain ⟨h', hmoments, hfollows⟩ := exists_behind (first h) hq m
  refine ⟨cons h h', ?_, ?_⟩
  · rw [rest_cons]
    rintro (_ | ⟨_ | i, place⟩)
    · exact hmoments []
    · obtain ⟨m', hm', hplace⟩ := hof.moments place
      exact ⟨m', Trail.moments_andThen_left _ hm', hplace⟩
    · exact hmoments (i :: place)
  · rw [rest_cons]
    exact hof.follows.andThen hfollows

end History

/-! ## Running a plan -/

namespace Plan

variable (order : ByteOrder) (policy : UnknownTagPolicy) (src : Source)

theorem storing_eq (target : Prim) (x : Scalar) (d : Num) (m : Memory) :
    Run.ofStore m (target.store m order d x) = (storing order target x d).on m := by
  rw [Prim.store_eq, storing]
  cases target.word x with
  | error e => rfl
  | ok n =>
      simp only
      split
      · rfl
      · rw [Memory.storeWord, Trail.on_writing]

theorem unmatched_eq (name : Text) (tag : Nat) (m : Memory) :
    unmatched policy name tag m = (unmatchedTrail policy name tag).on m := by
  cases policy with
  | fail => rfl
  | ignore => rfl

theorem exists_copy (s d : Num) (width : Nat) (m : Memory) :
    ∃ h : History, h.Of src (fun src => copy src s d width)
      (.reading h.here s width fun bytes => .writing d bytes) m := by
  obtain ⟨h, hof⟩ := History.exists_reading s width
    (fun bytes _ m => .ofStore m (m.store d bytes)) (fun _ bytes => .writing d bytes)
    fun bytes => ⟨_, History.of_blind fun _ m => (Trail.on_writing d bytes m).symm⟩
  exact ⟨_, hof⟩

theorem exists_convertScalar (source : PrimName) (target : Prim) (s d : Num) (m : Memory) :
    ∃ h : History, h.Of src (fun src => convertScalar order src source target s d)
      (widening order h.here source target s d) m := by
  by_cases hunit : source = .unit
  · refine ⟨_, History.of_blind fun src m => ?_⟩
    rw [convertScalar, Scalar.load_eq, widening, if_pos hunit, if_pos hunit]
    exact storing_eq order target _ d m
  · obtain ⟨h, hof⟩ := History.exists_reading s source.size
      (fun bytes _ m =>
        .ofStore m (target.store m order d (Scalar.ofWord (Word.ofBytes order bytes) source)))
      (fun _ bytes => storing order target (Scalar.ofWord (Word.ofBytes order bytes) source) d)
      fun bytes => ⟨_, History.of_blind fun _ m => storing_eq order target _ d m⟩
    refine ⟨.reading (src.seen m) h, ?_⟩
    rw [widening, if_neg hunit]
    refine hof.congr fun src m => ?_
    rw [convertScalar, Scalar.load_eq, if_neg hunit, Memory.loadWord]
    cases (src.seen m).load s source.size with
    | ok bytes => rfl
    | error e => rfl

mutual

/-- **Running a plan is replaying its trail** for what the run finds in the source. -/
theorem exists_run : ∀ (plan : Plan) (s d : Num) (m : Memory),
    ∃ h : History, h.Of src (fun src => run order policy src plan s d)
      (trail order policy h plan s d) m
  | word width, s, d, m => by
      simp only [run, trail]
      exact exists_copy src s d width m
  | bytes count, s, d, m => by
      simp only [run, trail]
      exact History.exists_iterate (fun i m => exists_copy src _ _ 1 m) 0 count m
  | widen source target, s, d, m => by
      simp only [run, trail]
      exact exists_convertScalar order src source target s d m
  | array count elem srcStep dstStep, s, d, m => by
      simp only [run, trail]
      exact History.exists_iterate (fun i m => exists_run elem _ _ m) 0 count m
  | record fields, s, d, m => by
      simp only [run, trail]
      exact exists_runFields fields s d m
  | variant name maxAlign arms, s, d, m => by
      obtain ⟨h, hof⟩ := History.exists_reading s 4
        (fun bytes src => runArm order policy src name (Word.ofBytes order bytes) arms _ d)
        (fun h bytes => trailArm order policy h name (Word.ofBytes order bytes) arms _ d)
        fun bytes => exists_runArm name _ arms (s + payloadOffset maxAlign) d m
      refine ⟨.reading (src.seen m) h, ?_⟩
      simp only [trail]
      refine hof.congr fun src m => ?_
      rw [run, Memory.loadWord]
      cases (src.seen m).load s 4 with
      | ok bytes => rfl
      | error e => rfl

theorem exists_runFields : ∀ (fields : List (FieldPlan Plan)) (s d : Num) (m : Memory),
    ∃ h : History, h.Of src (fun src => runFields order policy src fields s d)
      (trailFields order policy h fields s d) m
  | [], s, d, m => by
      simp only [runFields, trailFields]
      exact ⟨_, History.of_blind fun _ _ => rfl⟩
  | f :: rest, s, d, m => by
      simp only [runFields, trailFields]
      exact History.exists_cons (exists_run f.convert _ _ m) (exists_runFields rest s d)

theorem exists_runArm : ∀ (name : Text) (tag : Nat) (arms : List (Arm Plan)) (s d : Num) (m : Memory),
    ∃ h : History, h.Of src (fun src => runArm order policy src name tag arms s d)
      (trailArm order policy h name tag arms s d) m
  | name, tag, [], s, d, m => by
      simp only [runArm, trailArm]
      exact ⟨_, History.of_blind fun _ m => unmatched_eq policy name tag m⟩
  | name, tag, arm :: rest, s, d, m => by
      simp only [runArm, trailArm]
      split
      · obtain ⟨h, hmoments, hfollows⟩ := History.exists_behind
          (.writing d (Word.toBytes order 4 arm.tag.toNat))
          (exists_run arm.convert s (d + arm.payloadAt)) m
        have hmark : Program.Follows (fun _ m => .ofStore m (m.storeWord order d 4 arm.tag.toNat))
            src (.writing d (Word.toBytes order 4 arm.tag.toNat)) m :=
          Program.follows_of_blind fun _ m => (Trail.on_writing d _ m).symm
        exact ⟨h, hmoments, hmark.andThen hfollows⟩
      · exact exists_runArm name tag rest s d m

end

/-- The replay for a source that is apart. -/
theorem run_eq (src : Memory) (plan : Plan) (s d : Num) (m : Memory) :
    run order policy src plan s d m = (trail order policy src plan s d).on m := by
  obtain ⟨h, hof⟩ := exists_run order policy src plan s d m
  obtain rfl := hof.eq_always fun _ _ => rfl
  exact hof.follows.run_eq

end Plan

end Relayout
